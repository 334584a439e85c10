/-
Reading descriptors and writing them.  A type is readable if its class name ends where the first semicolon is and it has
no more array dimensions than a type may have.  Reading accepts exactly the written forms of readable types: what a text
is read as is written at its start, and what is written is read back whatever follows it.
-/
import Mathlib.Data.List.TakeWhile
import Unscramble.Proofs.DescriptorNames

namespace Unscramble

/-- A base type whose written form ends where it should: at the first semicolon, if it is a class. -/
def BaseType.Readable : BaseType → Prop
  | .object name => ';' ∉ name.toList
  | _ => True

/-- A type that is read back from its written form. -/
structure TypeDesc.Readable (t : TypeDesc) : Prop where
  base : t.base.Readable
  dims : t.dims ≤ Descriptor.maxDims

/-- A method type whose types are all read back. -/
structure MethodDesc.Readable (m : MethodDesc) : Prop where
  params : ∀ t ∈ m.params, t.Readable
  result : m.result.Readable

namespace BaseType

/-- A base type begins neither with a bracket nor with a parenthesis. -/
theorem exists_chars_eq_cons (base : BaseType) :
    ∃ c rest, base.chars = c :: rest ∧ c ≠ '[' ∧ c ≠ ')' ∧ c ≠ '(' := by
  cases base with
  | object name => exact ⟨'L', name.toList ++ [';'], rfl, by decide, by decide, by decide⟩
  | _ => exact ⟨_, [], rfl, by decide, by decide, by decide⟩

end BaseType

namespace Descriptor

variable {base : BaseType} {t : TypeDesc} {types : List TypeDesc} {m : MethodDesc}
variable {input name rest : List Char}

theorem splitAtSemicolon_append (hname : ';' ∉ name) (rest : List Char) :
    splitAtSemicolon (name ++ ';' :: rest) = some (name, rest) := by
  induction name with
  | nil => rfl
  | cons c tail ih =>
      rw [List.mem_cons, not_or] at hname
      rw [List.cons_append, splitAtSemicolon, ih hname.2]
      · rfl
      · exact fun heq => hname.1 heq.symm

/-- A written base type is read back, whatever follows it. -/
theorem readBase_chars (h : base.Readable) (rest : List Char) :
    readBase (base.chars ++ rest) = .ok (some base, rest) := by
  cases base with
  | object name =>
      have hwritten : (BaseType.object name).chars ++ rest = 'L' :: (name.toList ++ ';' :: rest) := by
        simp [BaseType.chars]
      rw [hwritten, readBase, splitAtSemicolon_append h]
      simp
  | _ => rfl

/-- What is read as a base type is written at the start of the text. -/
theorem of_readBase (h : readBase input = .ok (some base, rest)) :
    base.Readable ∧ input = base.chars ++ rest := by
  fun_cases readBase input with
  | case1 | case13 | case14 => simp_all [readBase]
  | case2 => cases h
  | case12 tail name back hsplit =>
      rw [readBase, hsplit] at h
      obtain ⟨hbase, rfl⟩ := Prod.mk.inj (Except.ok.inj h)
      obtain rfl := Option.some.inj hbase
      have hwritten := splitAtSemicolon_eq hsplit
      refine ⟨?_, by simp [BaseType.chars, hwritten]⟩
      simpa [BaseType.Readable] using semicolon_not_mem hsplit
  | _ =>
      obtain ⟨hbase, rfl⟩ := Prod.mk.inj (Except.ok.inj h)
      obtain rfl := Option.some.inj hbase
      exact ⟨trivial, rfl⟩

/-- A closing parenthesis is the only text that is read as no type. -/
theorem of_readBase_none (h : readBase input = .ok (none, rest)) : input = ')' :: rest := by
  fun_cases readBase input with
  | case1 | case12 | case13 | case14 => simp_all [readBase]
  | case2 =>
      obtain ⟨-, rfl⟩ := Prod.mk.inj (Except.ok.inj h)
      rfl
  | _ => cases h

/-- The brackets of a written type are all that stand before its base type. -/
theorem takeWhile_chars (t : TypeDesc) (rest : List Char) :
    (t.chars ++ rest).takeWhile (· == '[') = List.replicate t.dims '[' := by
  obtain ⟨c, tail, hbase, hc, -⟩ := t.base.exists_chars_eq_cons
  rw [TypeDesc.chars, hbase, List.append_assoc, List.takeWhile_append_of_pos (by simp), List.cons_append,
    List.takeWhile_cons_of_neg (by simpa using hc), List.append_nil]

theorem drop_chars (t : TypeDesc) (rest : List Char) : (t.chars ++ rest).drop t.dims = t.base.chars ++ rest := by
  rw [TypeDesc.chars, List.append_assoc]
  exact List.drop_left' List.length_replicate

/-- Every text is the brackets at its start and what follows them. -/
theorem eq_brackets_append (input : List Char) :
    input = List.replicate (input.takeWhile (· == '[')).length '[' ++
      input.drop (input.takeWhile (· == '[')).length := by
  have hbrackets : input.takeWhile (· == '[') = List.replicate (input.takeWhile (· == '[')).length '[' := by
    refine List.eq_replicate_of_mem fun c hc => ?_
    simpa using List.mem_takeWhile_imp hc
  have htake := List.prefix_iff_eq_take.1 (List.takeWhile_prefix (· == '[') (l := input))
  rw [← hbrackets, htake, List.length_take, Nat.min_eq_left (List.takeWhile_prefix _).length_le,
    List.take_append_drop]

/-- A written type is read back, whatever follows it. -/
theorem readType_chars (h : t.Readable) (rest : List Char) : readType (t.chars ++ rest) = .ok (some t, rest) := by
  have hdims := h.dims
  simp only [readType, takeWhile_chars, List.length_replicate, drop_chars, readBase_chars h.base]
  rw [if_neg (by omega)]

/-- What is read as a type is written at the start of the text. -/
theorem of_readType (h : readType input = .ok (some t, rest)) : t.Readable ∧ input = t.chars ++ rest := by
  simp only [readType] at h
  split at h
  · cases h
  · next hdims =>
      split at h
      · cases h
      · next base tail hbase =>
          obtain ⟨htype, rfl⟩ := Prod.mk.inj (Except.ok.inj h)
          obtain rfl := Option.some.inj htype
          obtain ⟨hreadable, hinput⟩ := of_readBase hbase
          refine ⟨⟨hreadable, Nat.le_of_not_lt hdims⟩, ?_⟩
          rw [TypeDesc.chars, List.append_assoc, ← hinput]
          exact eq_brackets_append input
      · split at h <;> cases h

/-- A closing parenthesis is the only text that is read as no type. -/
theorem of_readType_none (h : readType input = .ok (none, rest)) : input = ')' :: rest := by
  simp only [readType] at h
  split at h
  · cases h
  · split at h
    · cases h
    · cases h
    · next tail hbase =>
        split at h
        · next hdims =>
            obtain ⟨-, rfl⟩ := Prod.mk.inj (Except.ok.inj h)
            rw [hdims] at hbase
            exact of_readBase_none hbase
        · cases h

/-- Written parameters are read back up to the closing parenthesis. -/
theorem readParams_chars (h : ∀ t ∈ types, t.Readable) (rest : List Char) :
    readParams (types.flatMap TypeDesc.chars ++ ')' :: rest) = .ok (types, rest) := by
  induction types with
  | nil =>
      rw [List.flatMap_nil, List.nil_append, readParams]
      rfl
  | cons t types ih =>
      rw [List.forall_mem_cons] at h
      rw [List.flatMap_cons, List.append_assoc, readParams]
      split
      · next heq => rw [readType_chars h.1] at heq; cases heq
      · next heq => rw [readType_chars h.1] at heq; cases heq
      · next type tail heq =>
          rw [readType_chars h.1] at heq
          obtain ⟨htype, rfl⟩ := Prod.mk.inj (Except.ok.inj heq)
          obtain rfl := Option.some.inj htype
          rw [ih h.2]

/-- What is read as parameters is written at the start of the text, up to the closing parenthesis. -/
theorem of_readParams (h : readParams input = .ok (types, rest)) :
    (∀ t ∈ types, t.Readable) ∧ input = types.flatMap TypeDesc.chars ++ ')' :: rest := by
  fun_induction readParams input generalizing types rest with
  | case1 => cases h
  | case2 input tail hnone =>
      obtain ⟨rfl, rfl⟩ := Prod.mk.inj (Except.ok.inj h)
      exact ⟨nofun, of_readType_none hnone⟩
  | case3 => cases h
  | case4 input type tail hsome _ others back hothers ih =>
      obtain ⟨rfl, rfl⟩ := Prod.mk.inj (Except.ok.inj h)
      obtain ⟨hreadable, hinput⟩ := of_readType hsome
      obtain ⟨hall, htail⟩ := ih hothers
      refine ⟨List.forall_mem_cons.2 ⟨hreadable, hall⟩, ?_⟩
      rw [hinput, htail, List.flatMap_cons, List.append_assoc]

/-- A text is read as a method type exactly if it begins with the written form of that type. -/
theorem readMethod_iff : readMethod input = .ok m ↔ m.Readable ∧ ∃ rest, input = m.chars ++ rest := by
  constructor
  · intro h
    unfold readMethod at h
    split at h
    · next body =>
        split at h
        · cases h
        · next params tail hparams =>
            split at h
            · cases h
            · cases h
            · next result rest hresult =>
                obtain rfl := Except.ok.inj h
                obtain ⟨hreadable, hbody⟩ := of_readParams hparams
                obtain ⟨hreturn, htail⟩ := of_readType hresult
                refine ⟨⟨hreadable, hreturn⟩, rest, ?_⟩
                rw [hbody, htail]
                simp [MethodDesc.chars]
    · cases h
  · rintro ⟨⟨hparams, hresult⟩, rest, rfl⟩
    have hwritten : m.chars ++ rest = '(' :: (m.params.flatMap TypeDesc.chars ++ ')' :: (m.result.chars ++ rest)) := by
      simp [MethodDesc.chars]
    rw [hwritten, readMethod, readParams_chars hparams]
    simp only [readType_chars hresult]

theorem parseMethod_iff {text : String} :
    parseMethod text = .ok m ↔ m.Readable ∧ ∃ rest, text.toList = m.chars ++ rest :=
  readMethod_iff

end Descriptor

end Unscramble
