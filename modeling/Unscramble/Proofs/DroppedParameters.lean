/-
Dropping the last parameter agrees with reading.  The text is cut without being read as a descriptor, yet each part is
what reading takes for one parameter, as long as no class name among the parameters has the parenthesis at which the
cutting stops.  So what is left has all parameters but the last one and the same return type.
-/
import Unscramble.Proofs.DescriptorReading

namespace Unscramble

/-- A type whose written form has no closing parenthesis: no class name has one. -/
def TypeDesc.StaysInside (t : TypeDesc) : Prop :=
  ∀ name, t.base = .object name → ')' ∉ name.toList

theorem TypeDesc.StaysInside.not_mem {t : TypeDesc} (h : t.StaysInside) : ')' ∉ t.chars := by
  obtain ⟨base, dims⟩ := t
  rw [chars, List.mem_append, not_or]
  constructor
  · intro hmem
    exact absurd (List.eq_of_mem_replicate hmem) (by decide)
  · cases base with
    | object name => simpa [BaseType.chars] using h name rfl
    | _ => simp [BaseType.chars]

theorem TypeDesc.totalSlots_concat (types : List TypeDesc) (last : TypeDesc) :
    totalSlots (types ++ [last]) = totalSlots types + last.slots := by
  simp [totalSlots]

namespace Descriptor

variable {t : TypeDesc} {types : List TypeDesc} {m : MethodDesc} {descriptor : String}

theorem dropWhile_chars (t : TypeDesc) (rest : List Char) :
    (t.chars ++ rest).dropWhile (· == '[') = t.base.chars ++ rest := by
  have hsplit := List.takeWhile_append_dropWhile (p := (· == '[')) (l := t.chars ++ rest)
  rw [takeWhile_chars] at hsplit
  conv_rhs at hsplit => rw [TypeDesc.chars, List.append_assoc]
  exact List.append_cancel_left hsplit

/-- The next part of some parameters is the first of the types that they are read as. -/
theorem splitParameter_chars (h : t.Readable) (rest : List Char) :
    splitParameter (t.chars ++ rest) = .ok (t.chars, rest) := by
  obtain ⟨base, dims⟩ := t
  simp only [splitParameter, takeWhile_chars, dropWhile_chars]
  cases base with
  | object name =>
      have hwritten : (BaseType.object name).chars ++ rest = 'L' :: (name.toList ++ ';' :: rest) := by
        simp [BaseType.chars]
      rw [hwritten]
      simp only [splitAtSemicolon_append h.base]
      simp [TypeDesc.chars, BaseType.chars]
  | _ => rfl

/-- The parts of some parameters are the types that they are read as. -/
theorem splitParameters_chars (h : ∀ t ∈ types, t.Readable) :
    splitParameters (types.flatMap TypeDesc.chars) = .ok (types.map TypeDesc.chars) := by
  induction types with
  | nil =>
      rw [splitParameters]
      rfl
  | cons t types ih =>
      rw [List.forall_mem_cons] at h
      have hpart := splitParameter_chars h.1 (types.flatMap TypeDesc.chars)
      obtain ⟨c, rest, hbase, -⟩ := t.base.exists_chars_eq_cons
      rw [List.flatMap_cons, splitParameters, if_neg (by simp [TypeDesc.chars, hbase])]
      split
      · next hfault => rw [hpart] at hfault; cases hfault
      · next part rest hcut =>
          rw [hpart] at hcut
          obtain ⟨rfl, rfl⟩ := Prod.mk.inj (Except.ok.inj hcut)
          rw [ih h.2]
          rfl

/-- The first closing parenthesis ends the parameters if no class name among them has one. -/
theorem span_params (h : ∀ t ∈ types, t.StaysInside) (rest : List Char) :
    (types.flatMap TypeDesc.chars ++ ')' :: rest).takeWhile (· != ')') = types.flatMap TypeDesc.chars ∧
      (types.flatMap TypeDesc.chars ++ ')' :: rest).dropWhile (· != ')') = ')' :: rest := by
  have hall : ∀ c ∈ types.flatMap TypeDesc.chars, (c != ')') = true := by
    intro c hc
    obtain ⟨t, ht, hmem⟩ := List.mem_flatMap.1 hc
    have hne : c ≠ ')' := fun heq => (h t ht).not_mem (heq ▸ hmem)
    simpa using hne
  constructor
  · rw [List.takeWhile_append_of_pos hall]
    simp
  · rw [List.dropWhile_append_of_pos hall]
    simp

/-- The shorter descriptor is that of all parameters but the last one. -/
theorem dropLastParameter_eq (hread : parseMethod descriptor = .ok m) (hinside : ∀ t ∈ m.params, t.StaysInside)
    (hsome : m.params ≠ []) : ∃ shorter, dropLastParameter descriptor = .ok shorter ∧
      parseMethod shorter = .ok ⟨m.params.dropLast, m.result⟩ := by
  obtain ⟨hreadable, rest, htext⟩ := parseMethod_iff.1 hread
  have hwritten : descriptor.toList =
      '(' :: (m.params.flatMap TypeDesc.chars ++ ')' :: (m.result.chars ++ rest)) := by
    rw [htext]
    simp [MethodDesc.chars]
  obtain ⟨htake, hdrop⟩ := span_params hinside (m.result.chars ++ rest)
  -- There are parts, so the match on them below takes its last branch.
  have hparts : m.params.map TypeDesc.chars ≠ [] := by simpa using hsome
  refine ⟨String.ofList ((MethodDesc.mk m.params.dropLast m.result).chars ++ rest), ?_, ?_⟩
  · rw [dropLastParameter, hwritten]
    simp only [hdrop, htake, splitParameters_chars hreadable.params]
    simp [MethodDesc.chars, List.flatMap_def, List.map_dropLast]
  · refine parseMethod_iff.2 ⟨⟨fun t ht => ?_, hreadable.result⟩, rest, String.toList_ofList⟩
    exact hreadable.params t (List.dropLast_subset _ ht)

/-- A descriptor that is read as that of a method loses its last parameter and nothing else, if no class name among the
parameters has a closing parenthesis.  Without parameters there is none to drop. -/
theorem dropLastParameter_drops_last (hread : parseMethod descriptor = .ok m)
    (hinside : ∀ t ∈ m.params, t.StaysInside) :
    (∀ last, m.params.getLast? = some last → ∃ shorter slots, dropLastParameter descriptor = .ok shorter ∧
      parameters shorter = (parameters descriptor).map List.dropLast ∧ result shorter = result descriptor ∧
      parameterSlots shorter = .ok slots ∧ parameterSlots descriptor = .ok (slots + last.slots)) ∧
    (m.params = [] → dropLastParameter descriptor = .error (.noParameters descriptor)) := by
  have hparameters : parameters descriptor = .ok m.params := by rw [parameters, hread]
  constructor
  · intro last hlast
    obtain ⟨front, hfront⟩ := List.getLast?_eq_some_iff.1 hlast
    have hsome : m.params ≠ [] := by simp [hfront]
    obtain ⟨shorter, hdrop, hshorter⟩ := dropLastParameter_eq hread hinside hsome
    have hkept : parameters shorter = .ok m.params.dropLast := by rw [parameters, hshorter]
    refine ⟨shorter, TypeDesc.totalSlots m.params.dropLast, hdrop, ?_, ?_, ?_, ?_⟩
    · rw [hkept, hparameters]
      rfl
    · rw [result, result, hshorter, hread]
    · rw [parameterSlots, hkept]
      rfl
    · rw [parameterSlots, hparameters, hfront, List.dropLast_concat, ← TypeDesc.totalSlots_concat]
      rfl
  · intro hnone
    obtain ⟨-, rest, htext⟩ := parseMethod_iff.1 hread
    rw [dropLastParameter, htext, MethodDesc.chars, hnone]
    simp only [List.flatMap_nil, List.nil_append, List.cons_append]
    rw [List.dropWhile_cons_of_neg (by simp), List.takeWhile_cons_of_neg (by simp), splitParameters]
    rfl

/-- A method of a class, an array and a trailing number. -/
theorem dropLastParameter_drops_int :
    parseMethod "(Ljava/lang/String;[JI)V" =
        .ok ⟨[⟨.object "java/lang/String", 0⟩, ⟨.long, 1⟩, ⟨.int, 0⟩], ⟨.void, 0⟩⟩ ∧
      ∃ shorter slots, dropLastParameter "(Ljava/lang/String;[JI)V" = .ok shorter ∧
        parameters shorter = (parameters "(Ljava/lang/String;[JI)V").map List.dropLast ∧
        result shorter = result "(Ljava/lang/String;[JI)V" ∧ parameterSlots shorter = .ok slots ∧
        parameterSlots "(Ljava/lang/String;[JI)V" = .ok (slots + 1) := by
  have hread : parseMethod "(Ljava/lang/String;[JI)V" =
      .ok ⟨[⟨.object "java/lang/String", 0⟩, ⟨.long, 1⟩, ⟨.int, 0⟩], ⟨.void, 0⟩⟩ := by cbv
  have hinside : ∀ t ∈ [(⟨.object "java/lang/String", 0⟩ : TypeDesc), ⟨.long, 1⟩, ⟨.int, 0⟩], t.StaysInside := by
    simp [TypeDesc.StaysInside]
  exact ⟨hread, (dropLastParameter_drops_last hread hinside).1 ⟨.int, 0⟩ rfl⟩

end Descriptor

end Unscramble
