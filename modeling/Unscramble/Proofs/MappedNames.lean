/-
Renaming the classes of a descriptor without reading it.  The text is searched for an L and the next semicolon, and
still the search is in step with the grammar: what stands between them is always a whole class name.  So the renamed
text is read as the renamed types, and a renaming that knows no name leaves every text as it is.
-/
import Unscramble.Proofs.DescriptorReading
import Unscramble.Proofs.NewNames

namespace Unscramble

/-- A base type under a renaming of the classes. -/
def BaseType.renamed (rename : String → Option String) : BaseType → BaseType
  | .object name => .object (Descriptor.renamed rename name)
  | other => other

/-- A type under a renaming of the classes; an array keeps its dimensions. -/
def TypeDesc.renamed (rename : String → Option String) (t : TypeDesc) : TypeDesc where
  base := t.base.renamed rename
  dims := t.dims

/-- A method type under a renaming of the classes. -/
def MethodDesc.renamed (rename : String → Option String) (m : MethodDesc) : MethodDesc where
  params := m.params.map (TypeDesc.renamed rename)
  result := m.result.renamed rename

namespace Descriptor

variable {rename : String → Option String} {base : BaseType} {t : TypeDesc} {types : List TypeDesc} {m : MethodDesc}
variable {input front rest tail : List Char} {text : String}

/-- What has no L has no class name. -/
theorem mapChars_append_of_not_mem (h : 'L' ∉ front) (rest : List Char) :
    mapChars rename (front ++ rest) = front ++ mapChars rename rest := by
  induction front with
  | nil => rfl
  | cons c front ih =>
      rw [List.mem_cons, not_or] at h
      rw [List.cons_append, mapChars_other (Ne.symm h.1), ih h.2, List.cons_append]

/-- The search passes a base type and goes on right after it. -/
theorem mapChars_base (h : base.Readable) (rest : List Char) :
    mapChars rename (base.chars ++ rest) = (base.renamed rename).chars ++ mapChars rename rest := by
  cases base with
  | object name =>
      have hwritten : (BaseType.object name).chars ++ rest = 'L' :: (name.toList ++ ';' :: rest) := by
        simp [BaseType.chars]
      rw [hwritten, mapChars_class (splitAtSemicolon_append h rest), String.ofList_toList]
      simp [BaseType.renamed, BaseType.chars]
  | _ => exact mapChars_append_of_not_mem (by simp [BaseType.chars]) rest

theorem mapChars_type (h : t.Readable) (rest : List Char) :
    mapChars rename (t.chars ++ rest) = (t.renamed rename).chars ++ mapChars rename rest := by
  have hbrackets : 'L' ∉ List.replicate t.dims '[' := fun hmem => absurd (List.eq_of_mem_replicate hmem) (by decide)
  rw [TypeDesc.chars, List.append_assoc, mapChars_append_of_not_mem hbrackets, mapChars_base h.base,
    ← List.append_assoc]
  rfl

theorem mapChars_types (h : ∀ t ∈ types, t.Readable) (rest : List Char) :
    mapChars rename (types.flatMap TypeDesc.chars ++ rest) =
      (types.map (TypeDesc.renamed rename)).flatMap TypeDesc.chars ++ mapChars rename rest := by
  induction types with
  | nil => rfl
  | cons t types ih =>
      rw [List.forall_mem_cons] at h
      rw [List.flatMap_cons, List.append_assoc, mapChars_type h.1, ih h.2, List.map_cons, List.flatMap_cons,
        List.append_assoc]

/-- Renaming the classes of a written method type gives the written form of the renamed one. -/
theorem mapChars_method (h : m.Readable) (rest : List Char) :
    mapChars rename (m.chars ++ rest) = (m.renamed rename).chars ++ mapChars rename rest := by
  have hwritten : m.chars ++ rest = '(' :: (m.params.flatMap TypeDesc.chars ++ ')' :: (m.result.chars ++ rest)) := by
    simp [MethodDesc.chars]
  rw [hwritten, mapChars_other (by decide), mapChars_types h.params, mapChars_other (by decide),
    mapChars_type h.result]
  simp [MethodDesc.renamed, MethodDesc.chars]

/-- Without a semicolon and an L, the end of a text has no part in any class name. -/
theorem mapChars_append_of_plain (hsemicolon : ';' ∉ tail) (hletter : 'L' ∉ tail) (input : List Char) :
    mapChars rename (input ++ tail) = mapChars rename input ++ tail := by
  fun_induction mapChars rename input with
  | case1 =>
      have hplain : mapChars rename (tail ++ []) = tail ++ mapChars rename [] := mapChars_append_of_not_mem hletter []
      simpa [mapChars] using hplain
  | case2 rest hnone =>
      have hopen : splitAtSemicolon (rest ++ tail) = none := by
        rw [splitAtSemicolon_eq_none, List.mem_append, not_or]
        exact ⟨splitAtSemicolon_eq_none.1 hnone, hsemicolon⟩
      rw [List.cons_append, mapChars_open hopen]
  | case3 rest name back hsome _ ih =>
      have hname := splitAtSemicolon_append (semicolon_not_mem hsome) (back ++ tail)
      have hsplit : rest ++ tail = name ++ ';' :: (back ++ tail) := by
        rw [splitAtSemicolon_eq hsome]
        simp
      rw [List.cons_append, hsplit, mapChars_class hname, ih]
      cases hnew : rename (String.ofList name) <;> simp [renamed, hnew]
  | case4 c rest hc ih =>
      have hne : c ≠ 'L' := fun heq => hc heq
      rw [List.cons_append, mapChars_other hne, ih, List.cons_append]

/-- A renaming that knows no name changes nothing. -/
theorem mapChars_none (input : List Char) : mapChars (fun _ => none) input = input := by
  fun_induction mapChars (fun _ => none) input with
  | case1 => rfl
  | case2 => rfl
  | case3 rest name back hsome _ ih =>
      rw [ih, splitAtSemicolon_eq hsome]
      rfl
  | case4 c rest _ ih => rw [ih]

section Plain

variable (hplain : ∀ name new, rename name = some new → ';' ∉ new.toList)

include hplain

theorem readable_renamed_base (h : base.Readable) : (base.renamed rename).Readable := by
  cases base with
  | object name =>
      cases hnew : rename name with
      | none => simpa [BaseType.renamed, renamed, hnew] using h
      | some new => simpa [BaseType.renamed, renamed, hnew, BaseType.Readable] using hplain _ _ hnew
  | _ => exact h

theorem readable_renamed (h : t.Readable) : (t.renamed rename).Readable :=
  ⟨readable_renamed_base hplain h.base, h.dims⟩

/-- The renamed text of a method type is read as the renamed type. -/
theorem parseMethod_mapNames (h : parseMethod text = .ok m) :
    parseMethod (mapNames rename text) = .ok (m.renamed rename) := by
  obtain ⟨hreadable, rest, htext⟩ := parseMethod_iff.1 h
  refine parseMethod_iff.2 ⟨⟨fun t ht => ?_, readable_renamed hplain hreadable.result⟩, mapChars rename rest, ?_⟩
  · obtain ⟨t, hmem, rfl⟩ := List.mem_map.1 ht
    exact readable_renamed hplain (hreadable.params t hmem)
  · rw [mapNames, String.toList_ofList, htext, mapChars_method hreadable]

/-- The renamed text of a field type is read as the renamed type. -/
theorem fieldType_mapNames (h : fieldType text = .ok t) :
    fieldType (mapNames rename text) = .ok (t.renamed rename) := by
  have hwrapped : "(" ++ mapNames rename text ++ ")V" = mapNames rename ("(" ++ text ++ ")V") := by
    apply String.toList_inj.1
    have hend : mapChars rename (text.toList ++ [')', 'V']) = mapChars rename text.toList ++ [')', 'V'] :=
      mapChars_append_of_plain (by decide) (by decide) _
    have hstart : mapChars rename ('(' :: (text.toList ++ [')', 'V'])) =
        '(' :: mapChars rename (text.toList ++ [')', 'V']) :=
      mapChars_other (by decide)
    simp [mapNames, hstart, hend]
  unfold fieldType at h
  split at h
  · cases h
  · next m hparse =>
      split at h
      · next type hparams =>
          obtain rfl := Except.ok.inj h
          rw [fieldType, hwrapped, parseMethod_mapNames hplain hparse]
          simp [MethodDesc.renamed, hparams]
      · cases h

/-- Renaming the classes of a descriptor renames the classes of the types that it describes: those of a method, that of
a field, and the elements of an array class.  A renaming that knows no name leaves every text as it is. -/
theorem mapNames_renames_types :
    (∀ text m, parseMethod text = .ok m → parseMethod (mapNames rename text) = .ok (m.renamed rename)) ∧
    (∀ text t, fieldType text = .ok t → fieldType (mapNames rename text) = .ok (t.renamed rename)) ∧
    (∀ r : Renaming, (∀ name, r.classes.lookup name = rename name) → ∀ name t, name.startsWith "[" = true →
      fieldType name = .ok t → fieldType (r.className name) = .ok (t.renamed rename)) ∧
    (∀ text, mapNames (fun _ => none) text = text) := by
  refine ⟨fun text m => parseMethod_mapNames hplain, fun text t => fieldType_mapNames hplain, ?_, fun text => ?_⟩
  · intro r hr name t harray h
    obtain rfl : (fun name => r.classes.lookup name) = rename := funext hr
    rw [Renaming.className, if_pos harray]
    exact fieldType_mapNames hplain h
  · rw [mapNames, mapChars_none, String.ofList_toList]

end Plain

/-- Renames one class. -/
def onlyA (name : String) : Option String :=
  if name = "a" then some "class1" else none

/-- One of two classes gets a new name, wherever it stands. -/
theorem mapNames_renames_a :
    (∀ name new, onlyA name = some new → ';' ∉ new.toList) ∧
      parseMethod "(La;[[Lb;I)[La;" =
        .ok ⟨[⟨.object "a", 0⟩, ⟨.object "b", 2⟩, ⟨.int, 0⟩], ⟨.object "a", 1⟩⟩ ∧
      parseMethod (mapNames onlyA "(La;[[Lb;I)[La;") =
        .ok ⟨[⟨.object "class1", 0⟩, ⟨.object "b", 2⟩, ⟨.int, 0⟩], ⟨.object "class1", 1⟩⟩ := by
  have hplain : ∀ name new, onlyA name = some new → ';' ∉ new.toList := by
    intro name new h
    unfold onlyA at h
    split at h
    · obtain rfl := Option.some.inj h
      decide
    · cases h
  have hread : parseMethod "(La;[[Lb;I)[La;" =
      .ok ⟨[⟨.object "a", 0⟩, ⟨.object "b", 2⟩, ⟨.int, 0⟩], ⟨.object "a", 1⟩⟩ := by cbv
  exact ⟨hplain, hread, (mapNames_renames_types hplain).1 _ _ hread⟩

end Descriptor

end Unscramble
