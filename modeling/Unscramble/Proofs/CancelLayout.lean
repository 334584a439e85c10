/-
Where cancelling puts its multiplications.  Insertions for one position keep the order of the accesses that
ask for them, and an access asks for none that is further away than its neighbours.  So the new code is made
of one block for each instruction: what has to come before it, the instruction, and what has to come after
it.
-/
import Mathlib.Data.List.TakeDrop
import Unscramble.Multiplier.Cancel
import Unscramble.Proofs.Blocks
import Unscramble.Proofs.Results

namespace Unscramble.Multiplier.Cancel

/-- The instructions that insertions put before an index. -/
def insertedAt (found : List Insertion) (index : Nat) : List Instr :=
  (found.filter (·.position == index)).flatMap Insertion.instrs

@[simp] theorem insertedAt_nil (index : Nat) : insertedAt [] index = [] := rfl

@[simp] theorem insertedAt_cons (i : Insertion) (found : List Insertion) (index : Nat) :
    insertedAt (i :: found) index =
      (if i.position = index then i.instrs else []) ++ insertedAt found index := by
  by_cases h : i.position = index <;> simp [insertedAt, h]

theorem insertedAt_flatMap {α : Type} (f : α → List Insertion) (items : List α) (index : Nat) :
    insertedAt (items.flatMap f) index = items.flatMap fun a => insertedAt (f a) index := by
  rw [insertedAt, List.filter_flatMap, List.flatMap_assoc]
  rfl

theorem insertedAt_eq_nil {found : List Insertion} {index : Nat}
    (h : ∀ i ∈ found, i.position ≠ index) : insertedAt found index = [] := by
  have hnone : found.filter (·.position == index) = [] := by
    rw [List.filter_eq_nil_iff]
    intro i hi
    simpa using h i hi
  rw [insertedAt, hnone, List.flatMap_nil]

theorem position_le_trans (a b c : Insertion) (hab : decide (a.position ≤ b.position))
    (hbc : decide (b.position ≤ c.position)) : decide (a.position ≤ c.position) := by
  simp only [decide_eq_true_eq] at hab hbc ⊢
  omega

theorem position_le_total (a b : Insertion) :
    decide (a.position ≤ b.position) || decide (b.position ≤ a.position) := by
  simp only [Bool.or_eq_true, decide_eq_true_eq]
  omega

/-- Sorting insertions by their positions keeps the order of those for one position. -/
theorem insertedAt_mergeSort (found : List Insertion) (index : Nat) :
    insertedAt (found.mergeSort fun a b => a.position ≤ b.position) index =
      insertedAt found index := by
  have hsub : (found.filter (·.position == index)).Sublist
      (found.mergeSort fun a b => a.position ≤ b.position) := by
    apply List.sublist_mergeSort position_le_trans position_le_total _ List.filter_sublist
    rw [List.pairwise_filter]
    apply List.pairwise_of_forall
    intro a b ha hb
    simp only [beq_iff_eq] at ha hb
    simp [ha, hb]
  have hsub' := hsub.filter (·.position == index)
  rw [List.filter_filter, funext fun i => Bool.and_self _] at hsub'
  have hlength := ((List.mergeSort_perm found fun a b => a.position ≤ b.position).filter
    (·.position == index)).length_eq
  rw [insertedAt, insertedAt, hsub'.eq_of_length hlength.symm]

/-- Of sorted insertions, those up to an index are the ones that come first. -/
theorem span_position {pending : List Insertion} {index : Nat}
    (hsorted : pending.Pairwise fun a b => a.position ≤ b.position) :
    pending.span (·.position ≤ index) =
      (pending.filter (·.position ≤ index), pending.filter (index < ·.position)) := by
  rw [List.span_eq_takeWhile_dropWhile]
  induction pending with
  | nil => rfl
  | cons first rest ih =>
      rw [List.pairwise_cons] at hsorted
      obtain ⟨hfirst, hrest⟩ := hsorted
      have htails := Prod.mk.inj (ih hrest)
      by_cases hle : first.position ≤ index
      · have hlt : ¬ index < first.position := by omega
        simp [hle, hlt, htails.1, htails.2]
      · have hlater : ∀ i ∈ rest, index < i.position := by
          intro i hi
          have := hfirst i hi
          omega
        have hnone : rest.filter (·.position ≤ index) = [] := by
          rw [List.filter_eq_nil_iff]
          intro i hi
          have := hlater i hi
          simp only [decide_eq_true_eq]
          omega
        have hall : rest.filter (index < ·.position) = rest := by
          rw [List.filter_eq_self]
          intro i hi
          simpa using hlater i hi
        have hlt : index < first.position := by omega
        simp [hle, hlt, hnone, hall]

/-- What is inserted by the time the instruction at an index comes, if nothing is left from before it. -/
theorem insertedAt_eq {pending : List Insertion} {index : Nat} (hfrom : ∀ i ∈ pending, index ≤ i.position) :
    insertedAt pending index = (pending.filter (·.position ≤ index)).flatMap Insertion.instrs := by
  rw [insertedAt]
  congr 1
  apply List.filter_congr
  intro i hi
  have := hfrom i hi
  rw [decide_eq_decide.2 (show i.position ≤ index ↔ i.position = index by omega)]
  rfl

theorem insertedAt_filter_lt {index place : Nat} (pending : List Insertion) (hlt : index < place) :
    insertedAt (pending.filter (index < ·.position)) place = insertedAt pending place := by
  rw [insertedAt, insertedAt, List.filter_filter]
  congr 1
  apply List.filter_congr
  intro i _
  by_cases hi : i.position = place
  · simp [hi, hlt]
  · simp [hi]

theorem go_eq {code done : List Instr} {pending : List Insertion} {index : Nat}
    (hsorted : pending.Pairwise fun a b => a.position ≤ b.position)
    (hfrom : ∀ i ∈ pending, index ≤ i.position)
    (hto : ∀ i ∈ pending, i.position ≤ index + code.length) :
    insertAll.go pending code index done =
      done.reverse ++ (code.zipIdx index).flatMap (fun p => insertedAt pending p.2 ++ [p.1]) ++
        insertedAt pending (index + code.length) := by
  induction code generalizing pending index done with
  | nil =>
      have hall : pending.filter (·.position ≤ index) = pending := by
        rw [List.filter_eq_self]
        intro i hi
        exact decide_eq_true (hto i hi)
      simp [insertAll.go, insertedAt_eq hfrom, hall]
  | cons instr rest ih =>
      have hcongr : (rest.zipIdx (index + 1)).flatMap (fun p =>
          insertedAt (pending.filter (index < ·.position)) p.2 ++ [p.1]) =
          (rest.zipIdx (index + 1)).flatMap fun p => insertedAt pending p.2 ++ [p.1] := by
        apply List.flatMap_congr
        rintro ⟨i, place⟩ hmem
        rw [insertedAt_filter_lt pending (List.le_snd_of_mem_zipIdx hmem)]
      rw [insertAll.go, span_position hsorted]
      simp only
      rw [ih (hsorted.filter _), ← insertedAt_eq hfrom, insertedAt_filter_lt pending (by omega), hcongr]
      · simp [Nat.add_assoc, Nat.add_comm 1]
      · intro i hi
        exact of_decide_eq_true (List.mem_filter.1 hi).2
      · intro i hi
        have := hto i (List.mem_filter.1 hi).1
        simp only [List.length_cons] at this
        omega

/-- Insertions stand in the new code right before the instructions at their positions. -/
theorem insertAll_eq {found : List Insertion} {code : List Instr}
    (hto : ∀ i ∈ found, i.position ≤ code.length) :
    insertAll found code =
      code.zipIdx.flatMap (fun p => insertedAt found p.2 ++ [p.1]) ++
        insertedAt found code.length := by
  rw [insertAll, go_eq]
  · simp [insertedAt_mergeSort]
  · apply (List.pairwise_mergeSort position_le_trans position_le_total found).imp
    intro a b hab
    simpa using hab
  · simp
  · intro i hi
    have := hto i (List.mem_mergeSort.1 hi)
    omega

/-- The factor that the contents of a field take on: its decoder, in the width of the field. -/
def factor? (decoders : Decoders) (ref : MemberRef) : Option Number :=
  if ref.descriptor == "I" || ref.descriptor == "J" then
    (decoders.lookup ref.fieldKey).map (toWidth (ref.descriptor == "J"))
  else none

/-- A read of an encoded `int` that is widened at once. -/
def WidenedRead (decoders : Decoders) (code : List Instr) (index : Nat) : Prop :=
  ∃ op ref n, code[index]? = some (.field op ref) ∧ op.isRead ∧ ref.descriptor = "I" ∧
    factor? decoders ref = some n ∧ (code[index + 1]?).bind Instr.opcode? = some Opcode.i2l

/-- A store to an encoded field right after the duplication that leaves the stored value on the stack. -/
def ChainedStore (decoders : Decoders) (code : List Instr) (index : Nat) : Prop :=
  ∃ op ref n, code[index]? = some (.field op ref) ∧ (op = Opcode.putField ∨ op = Opcode.putStatic) ∧
    factor? decoders ref = some n ∧ 0 < index ∧ (code[index - 1]?).bind Instr.opcode? =
      some (chainedDup (op == Opcode.putStatic) (ref.descriptor == "J"))

/-- The insertions for which the instruction at an index is responsible, with the reason. -/
inductive Asks (decoders : Decoders) (code : List Instr) (index : Nat) : List Insertion → Prop where
  | nothing (h : ∀ op ref, code[index]? = some (.field op ref) → factor? decoders ref = none ∨
      op.isRead = false ∧ op ≠ Opcode.putField ∧ op ≠ Opcode.putStatic) : Asks decoders code index []
  | read {op : Opcode} {ref : MemberRef} {n inverse : Number}
      (hinstr : code[index]? = some (.field op ref)) (hop : op.isRead)
      (hfactor : factor? decoders ref = some n) (hinverse : n.inverse? = some inverse) :
      Asks decoders code index [⟨index + 1, times inverse⟩]
  | store {op : Opcode} {ref : MemberRef} {n : Number}
      (hinstr : code[index]? = some (.field op ref))
      (hop : op = Opcode.putField ∨ op = Opcode.putStatic)
      (hfactor : factor? decoders ref = some n) (hchained : ¬ ChainedStore decoders code index) :
      Asks decoders code index [⟨index, times n⟩]
  | chained {op : Opcode} {ref : MemberRef} {n inverse : Number}
      (hinstr : code[index]? = some (.field op ref))
      (hop : op = Opcode.putField ∨ op = Opcode.putStatic)
      (hfactor : factor? decoders ref = some n) (hinverse : n.inverse? = some inverse)
      (hpos : 0 < index) (hdup : (code[index - 1]?).bind Instr.opcode? =
        some (chainedDup (op == Opcode.putStatic) (ref.descriptor == "J"))) :
      Asks decoders code index [⟨index - 1, times n⟩, ⟨index + 1, times inverse⟩]

theorem encoder_eq_ok {wide : Bool} {decoder inverse : Number}
    (h : encoder wide decoder = .ok inverse) : (toWidth wide decoder).inverse? = some inverse := by
  rw [encoder, mapError_eq_ok, Number.inverse] at h
  split at h
  · next m hm => rw [hm, Except.ok.inj h]
  · cases h

variable {decoders : Decoders} {code : List Instr} {index : Nat}

/-- A read asks for one multiplication with the encoder, which comes after the next instruction where this widens an
`int`. -/
theorem access_get {op : Opcode} {ref : MemberRef} {decoder : Number}
    {previous next : Option Opcode} {answer : Option (List Insertion)}
    (h : access op ref decoder index previous next = .ok answer) (hop : op.isRead) :
    (ref.descriptor ≠ "J" ∧ next = some Opcode.i2l ∧
      ∃ inverse, (toWidth true decoder).inverse? = some inverse ∧ answer = some [⟨index + 2, times inverse⟩]) ∨
    (ref.descriptor ≠ "J" → next ≠ some Opcode.i2l) ∧
      ∃ inverse, (toWidth (ref.descriptor == "J") decoder).inverse? = some inverse ∧
        answer = some [⟨index + 1, times inverse⟩] := by
  have hget : (op == Opcode.getField || op == Opcode.getStatic) = true := by
    rw [Bool.or_comm]
    exact hop
  rw [access, if_pos hget] at h
  split at h
  · next hwidened =>
      have hcases : ref.descriptor ≠ "J" ∧ next = some Opcode.i2l := by simpa using hwidened
      obtain ⟨inverse, hinverse, hanswer⟩ := bind_eq_ok.1 h
      exact .inl ⟨hcases.1, hcases.2, inverse, encoder_eq_ok hinverse, (Except.ok.inj hanswer).symm⟩
  · next hnarrow =>
      obtain ⟨inverse, hinverse, hanswer⟩ := bind_eq_ok.1 h
      exact .inr ⟨by simpa using hnarrow, inverse, encoder_eq_ok hinverse, (Except.ok.inj hanswer).symm⟩

theorem access_store {op : Opcode} {ref : MemberRef} {decoder : Number}
    {previous next : Option Opcode} {answer : Option (List Insertion)}
    (h : access op ref decoder index previous next = .ok answer)
    (hop : op = Opcode.putField ∨ op = Opcode.putStatic) :
    (∃ inverse, previous = some (chainedDup (op == Opcode.putStatic) (ref.descriptor == "J")) ∧
      (toWidth (ref.descriptor == "J") decoder).inverse? = some inverse ∧
      answer = some [⟨index - 1, times (toWidth (ref.descriptor == "J") decoder)⟩,
        ⟨index + 1, times inverse⟩]) ∨
    previous ≠ some (chainedDup (op == Opcode.putStatic) (ref.descriptor == "J")) ∧
      answer = some [⟨index, times (toWidth (ref.descriptor == "J") decoder)⟩] := by
  have hget : ¬ (op == Opcode.getField || op == Opcode.getStatic) = true := by
    rcases hop with rfl | rfl <;> decide
  have hput : (op == Opcode.putField || op == Opcode.putStatic) = true := by
    simpa using hop
  rw [access, if_neg hget, if_pos hput] at h
  cases previous with
  | none => exact .inr ⟨nofun, (Except.ok.inj h).symm⟩
  | some dup =>
      simp only at h
      split at h
      · next hdup =>
          obtain ⟨inverse, hinverse, hanswer⟩ := bind_eq_ok.1 h
          exact .inl ⟨inverse, congrArg some (eq_of_beq hdup), encoder_eq_ok hinverse,
            (Except.ok.inj hanswer).symm⟩
      · next hdup =>
          split at h
          · cases h
          · exact .inr ⟨by simpa using hdup, (Except.ok.inj h).symm⟩

theorem access_other {op : Opcode} {ref : MemberRef} {decoder : Number}
    {previous next : Option Opcode} {answer : Option (List Insertion)}
    (h : access op ref decoder index previous next = .ok answer) (hread : op.isRead = false)
    (hfield : op ≠ Opcode.putField) (hstatic : op ≠ Opcode.putStatic) : answer = none := by
  have hget : ¬ (op == Opcode.getField || op == Opcode.getStatic) = true := by
    rw [Bool.or_comm, Bool.not_eq_true]
    exact hread
  have hput : ¬ (op == Opcode.putField || op == Opcode.putStatic) = true := by
    simp [hfield, hstatic]
  rw [access, if_neg hget, if_neg hput] at h
  exact (Except.ok.inj h).symm

/-- Nothing is asked for an instruction on a field without a factor, nor for one that neither reads nor stores. -/
theorem Asks.of_field {op : Opcode} {ref : MemberRef} (hinstr : code[index]? = some (.field op ref))
    (h : factor? decoders ref = none ∨ op.isRead = false ∧ op ≠ Opcode.putField ∧ op ≠ Opcode.putStatic) :
    Asks decoders code index [] := by
  refine .nothing fun op' ref' hinstr' => ?_
  rw [hinstr, Option.some.injEq, Instr.field.injEq] at hinstr'
  obtain ⟨rfl, rfl⟩ := hinstr'
  exact h

theorem asks_of_access {op : Opcode} {ref : MemberRef} {decoder : Number} {answer : Option (List Insertion)}
    (hinstr : code[index]? = some (.field op ref)) (hnumeric : ref.descriptor = "I" ∨ ref.descriptor = "J")
    (hfactor : factor? decoders ref = some (toWidth (ref.descriptor == "J") decoder))
    (h : access op ref decoder index (if index = 0 then none else (code[index - 1]?).bind Instr.opcode?)
      ((code[index + 1]?).bind Instr.opcode?) = .ok answer)
    (hwidened : ¬ WidenedRead decoders code index) : Asks decoders code index (answer.getD []) := by
  by_cases hread : op.isRead
  · rcases access_get h hread with ⟨hwide, hnext, -⟩ | ⟨-, inverse, hinverse, rfl⟩
    · exact absurd ⟨op, ref, _, hinstr, hread, hnumeric.resolve_right hwide, hfactor, hnext⟩ hwidened
    · exact .read hinstr hread hfactor hinverse
  by_cases hput : op = Opcode.putField ∨ op = Opcode.putStatic
  · rcases access_store h hput with ⟨inverse, hdup, hinverse, rfl⟩ | ⟨hdup, rfl⟩
    · have hpos : 0 < index := by
        rcases Nat.eq_zero_or_pos index with rfl | hpos
        · cases hdup
        · exact hpos
      rw [if_neg (by omega)] at hdup
      exact .chained hinstr hput hfactor hinverse hpos hdup
    · apply Asks.store hinstr hput hfactor
      rintro ⟨op', ref', n', hinstr', -, -, hpos, hdup'⟩
      rw [hinstr, Option.some.injEq, Instr.field.injEq] at hinstr'
      obtain ⟨rfl, rfl⟩ := hinstr'
      rw [if_neg (by omega)] at hdup
      exact hdup hdup'
  · have hother : op ≠ Opcode.putField ∧ op ≠ Opcode.putStatic := not_or.1 hput
    rw [Bool.not_eq_true] at hread
    obtain rfl := access_other h hread hother.1 hother.2
    exact .of_field hinstr (.inr ⟨hread, hother⟩)

theorem asks_of_insertions {answer : Option (List Insertion)}
    (h : insertions decoders code.toArray index = .ok answer)
    (hwidened : ¬ WidenedRead decoders code index) :
    Asks decoders code index (answer.getD []) := by
  unfold insertions at h
  simp only [List.getElem?_toArray] at h
  split at h
  · next op ref hinstr =>
      split at h
      · next hdesc =>
          split at h
          · next decoder hdecoder =>
              have hfactor : factor? decoders ref = some (toWidth (ref.descriptor == "J") decoder) := by
                rw [factor?, if_pos hdesc, hdecoder, Option.map_some]
              exact asks_of_access hinstr (by simpa using hdesc) hfactor h hwidened
          · next hdecoder =>
              obtain rfl := Except.ok.inj h
              have hnone : factor? decoders ref = none := by
                rw [factor?, if_pos hdesc, hdecoder, Option.map_none]
              exact .of_field hinstr (.inl hnone)
      · next hdesc =>
          obtain rfl := Except.ok.inj h
          exact .of_field hinstr (.inl (if_neg hdesc))
  · next hno =>
      obtain rfl := Except.ok.inj h
      apply Asks.nothing
      intro op ref hinstr
      exact absurd hinstr (hno op ref)

/-- The insertions for which the instruction at an index is responsible. -/
def own (decoders : Decoders) (code : List Instr) (index : Nat) : List Insertion :=
  (insertions decoders code.toArray index).toOption.join.getD []

/-- What comes before the instruction at an index: the multiplication for its own store, or the one for a
store that follows it. -/
def before (decoders : Decoders) (code : List Instr) (index : Nat) : List Instr :=
  insertedAt (own decoders code index) index ++ insertedAt (own decoders code (index + 1)) index

/-- What comes after the instruction at an index. -/
def after (decoders : Decoders) (code : List Instr) (index : Nat) : List Instr :=
  insertedAt (own decoders code index) (index + 1)

/-- The blocks that the instructions become. -/
def blocks (decoders : Decoders) (code : List Instr) : List (List Instr) :=
  code.zipIdx.map fun p => before decoders code p.2 ++ [p.1] ++ after decoders code p.2

/-- A method of which cancelling makes another one, none of its reads being widened at once. -/
structure Cancels (decoders : Decoders) (code : List Instr) : Prop where
  ok : ∀ index < code.length, ∃ answer, insertions decoders code.toArray index = .ok answer
  narrow : ∀ index, ¬ WidenedRead decoders code index

theorem own_of_length_le (h : code.length ≤ index) : own decoders code index = [] := by
  have hnone : code.toArray[index]? = none := by simpa using h
  rw [own, insertions, hnone]
  rfl

theorem Cancels.asks (h : Cancels decoders code) (index : Nat) :
    Asks decoders code index (own decoders code index) := by
  by_cases hlt : index < code.length
  · obtain ⟨answer, hanswer⟩ := h.ok index hlt
    have hasks := asks_of_insertions hanswer (h.narrow index)
    have hown : own decoders code index = answer.getD [] := by
      rw [own, hanswer]
      rfl
    rwa [hown]
  · rw [own_of_length_le (by omega)]
    apply Asks.nothing
    intro op ref hinstr
    rw [List.getElem?_eq_none (by omega)] at hinstr
    cases hinstr

/-- An instruction asks for insertions next to it only. -/
theorem Asks.position {found : List Insertion} (h : Asks decoders code index found) :
    ∀ i ∈ found, i.position ≤ index + 1 ∧ index ≤ i.position + 1 := by
  cases h with
  | nothing => nofun
  | read | store =>
      simp only [List.mem_singleton, forall_eq]
      omega
  | chained _ _ _ _ hpos =>
      simp only [List.mem_cons, List.not_mem_nil, or_false, forall_eq_or_imp, forall_eq]
      omega

theorem flatMap_range_of_le {α : Type} {f : Nat → List α} {small large : Nat} (h : small ≤ large)
    (hnil : ∀ i, small ≤ i → f i = []) :
    (List.range large).flatMap f = (List.range small).flatMap f := by
  obtain ⟨extra, rfl⟩ := Nat.exists_eq_add_of_le h
  have hextra : (List.range' small extra).flatMap f = [] := by
    rw [List.flatMap_eq_nil_iff]
    intro i hi
    exact hnil i (List.mem_range'_1.1 hi).1
  rw [List.range_eq_range', ← List.range'_append_1, List.flatMap_append, Nat.zero_add, hextra,
    List.append_nil, List.range_eq_range']

/-- A sum over indexes of which only a few count. -/
theorem flatMap_range_window {α : Type} {f : Nat → List α} {size : Nat} (first count : Nat)
    (hsize : ∀ i, size ≤ i → f i = [])
    (hwindow : ∀ i, i < first ∨ first + count ≤ i → f i = []) :
    (List.range size).flatMap f = (List.range' first count).flatMap f := by
  have hlarge := flatMap_range_of_le (Nat.le_max_left size (first + count)) hsize
  have hsmall := flatMap_range_of_le (Nat.le_max_right size (first + count))
    fun i hi => hwindow i (.inr hi)
  have hfirst : (List.range first).flatMap f = [] := by
    rw [List.flatMap_eq_nil_iff]
    intro i hi
    exact hwindow i (.inl (List.mem_range.1 hi))
  rw [← hlarge, hsmall, List.range_eq_range', ← List.range'_append_1, List.flatMap_append,
    ← List.range_eq_range', hfirst, List.nil_append, Nat.zero_add]

theorem insertedAt_own_eq_nil (h : Cancels decoders code) {i position : Nat}
    (hfar : position + 1 < i ∨ i + 1 < position) :
    insertedAt (own decoders code i) position = [] := by
  apply insertedAt_eq_nil
  intro insertion hmem
  have := (h.asks i).position insertion hmem
  omega

/-- What stands before an index in the new code: first what comes after the instruction before it, then what
comes before its own. -/
theorem insertedAt_all (h : Cancels decoders code) (index : Nat) :
    insertedAt ((List.range code.length).flatMap (own decoders code)) index =
      (if index = 0 then [] else after decoders code (index - 1)) ++ before decoders code index := by
  rw [insertedAt_flatMap]
  have hsize : ∀ i, code.length ≤ i → insertedAt (own decoders code i) index = [] := by
    intro i hi
    rw [own_of_length_le hi, insertedAt_nil]
  cases index with
  | zero =>
      rw [flatMap_range_window 0 2 hsize]
      · simp [List.range', before]
      · intro i hi
        exact insertedAt_own_eq_nil h (by omega)
  | succ index =>
      rw [flatMap_range_window index 3 hsize]
      · simp [List.range', before, after]
      · intro i hi
        exact insertedAt_own_eq_nil h (by omega)

/-- The instructions with what comes before and after them, written down in either way. -/
theorem flatMap_zipIdx_shift (pre post : Nat → List Instr) (code : List Instr) (first : Nat) :
    (code.zipIdx first).flatMap (fun p => pre p.2 ++ post p.2 ++ [p.1]) ++ pre (first + code.length) =
      pre first ++ (code.zipIdx first).flatMap fun p => post p.2 ++ [p.1] ++ pre (p.2 + 1) := by
  induction code generalizing first with
  | nil => simp
  | cons instr rest ih =>
      have := ih (first + 1)
      simp only [List.zipIdx_cons, List.flatMap_cons, List.length_cons, List.append_assoc]
      rw [show first + (rest.length + 1) = first + 1 + rest.length by omega]
      simp only [List.append_assoc] at this
      rw [this]

/-- The new code is made of the blocks of the instructions. -/
theorem insertAll_eq_flatten (h : Cancels decoders code) :
    insertAll ((List.range code.length).flatMap (own decoders code)) code =
      (blocks decoders code).flatten := by
  rw [insertAll_eq]
  · have hshift := flatMap_zipIdx_shift
      (fun index => if index = 0 then [] else after decoders code (index - 1))
      (before decoders code) code 0
    have hlast : before decoders code code.length = [] := by
      simp [before, own_of_length_le]
    simp only [insertedAt_all h, hlast, List.append_nil]
    rw [Nat.zero_add] at hshift
    rw [hshift, blocks, ← List.flatMap_def]
    simp
  · intro i hi
    obtain ⟨index, hindex, hi⟩ := List.mem_flatMap.1 hi
    have := (h.asks index).position i hi
    have := List.mem_range.1 hindex
    omega

theorem flatten_filterMap {α β : Type} (f : α → Option (List β)) (items : List α) :
    (items.filterMap f).flatten = items.flatMap fun a => (f a).getD [] := by
  induction items with
  | nil => rfl
  | cons a rest ih =>
      rw [List.filterMap_cons, List.flatMap_cons]
      cases f a with
      | none => exact ih
      | some part => rw [List.flatten_cons, ih, Option.getD_some]

/-- What cancelling does, once it is known what the instructions ask for. -/
theorem cancel_of_insertions {m : MethodDecl} {found : List (List Insertion)}
    (hfound : (List.range m.code.length).filterMapM (insertions decoders m.code.toArray) = .ok found)
    (hto : ∀ i ∈ found.flatten, i.position ≤ m.code.length) :
    cancel decoders m = .ok ({ m with
      code := m.code.zipIdx.flatMap (fun p => insertedAt found.flatten p.2 ++ [p.1]) ++
        insertedAt found.flatten m.code.length }, found.length) := by
  simp only [cancel, List.size_toArray, hfound, bind, Except.bind, pure, Except.pure]
  rw [insertAll_eq hto]

/-- Cancelling puts into the code what the instructions ask for. -/
theorem cancel_eq_insertAll {m m' : MethodDecl} {count : Nat} (h : cancel decoders m = .ok (m', count)) :
    (∀ index < m.code.length, ∃ answer, insertions decoders m.code.toArray index = .ok answer) ∧
      m' = { m with code := insertAll ((List.range m.code.length).flatMap (own decoders m.code)) m.code } := by
  rw [cancel] at h
  obtain ⟨found, hfound, h⟩ := bind_eq_ok.1 h
  obtain ⟨hok, hfound⟩ := filterMapM_eq_ok hfound
  have hflatten : found.flatten = (List.range m.code.length).flatMap (own decoders m.code) := by
    rw [hfound, flatten_filterMap, List.size_toArray]
    rfl
  refine ⟨fun index hindex => hok index (by simpa using hindex), ?_⟩
  rw [← hflatten]
  exact (congrArg Prod.fst (Except.ok.inj h)).symm

/-- What cancelling makes of a method without reads that are widened at once. -/
theorem cancel_eq_ok {m m' : MethodDecl} {count : Nat} (h : cancel decoders m = .ok (m', count))
    (hnarrow : ∀ index, ¬ WidenedRead decoders m.code index) :
    Cancels decoders m.code ∧ m' = { m with code := (blocks decoders m.code).flatten } := by
  obtain ⟨hok, hcode⟩ := cancel_eq_insertAll h
  have hcancels : Cancels decoders m.code := ⟨hok, hnarrow⟩
  rw [insertAll_eq_flatten hcancels] at hcode
  exact ⟨hcancels, hcode⟩

/-- What the instruction at an index gets before and after it, with the reason. -/
inductive Wrapped (decoders : Decoders) (code : List Instr) (index : Nat) :
    Instr → List Instr → List Instr → Prop where
  | plain {instr : Instr} (hplain : ∀ op ref, instr = .field op ref → factor? decoders ref = none ∨
      op.isRead = false ∧ op ≠ Opcode.putField ∧ op ≠ Opcode.putStatic)
      (hnext : ¬ ChainedStore decoders code (index + 1)) : Wrapped decoders code index instr [] []
  | read {op : Opcode} {ref : MemberRef} {n inverse : Number} (hop : op.isRead)
      (hfactor : factor? decoders ref = some n) (hinverse : n.inverse? = some inverse) :
      Wrapped decoders code index (.field op ref) [] (times inverse)
  | store {op : Opcode} {ref : MemberRef} {n : Number}
      (hop : op = Opcode.putField ∨ op = Opcode.putStatic)
      (hfactor : factor? decoders ref = some n) (hchained : ¬ ChainedStore decoders code index) :
      Wrapped decoders code index (.field op ref) (times n) []
  | duplicate {instr : Instr} {op : Opcode} {ref : MemberRef} {n : Number}
      (hnext : code[index + 1]? = some (.field op ref))
      (hop : op = Opcode.putField ∨ op = Opcode.putStatic)
      (hfactor : factor? decoders ref = some n)
      (hdup : instr.opcode? = some (chainedDup (op == Opcode.putStatic) (ref.descriptor == "J"))) :
      Wrapped decoders code index instr (times n) []
  | chained {op : Opcode} {ref : MemberRef} {n inverse : Number}
      (hop : op = Opcode.putField ∨ op = Opcode.putStatic)
      (hfactor : factor? decoders ref = some n) (hinverse : n.inverse? = some inverse)
      (hchained : ChainedStore decoders code index) :
      Wrapped decoders code index (.field op ref) [] (times inverse)

/-- What a store that follows the instruction at an index puts before that instruction. -/
theorem insertedAt_own_succ (h : Cancels decoders code) (index : Nat) :
    (¬ ChainedStore decoders code (index + 1) ∧
      insertedAt (own decoders code (index + 1)) index = []) ∨
    ∃ op ref n, code[index + 1]? = some (.field op ref) ∧
      (op = Opcode.putField ∨ op = Opcode.putStatic) ∧ factor? decoders ref = some n ∧
      (code[index]?).bind Instr.opcode? =
        some (chainedDup (op == Opcode.putStatic) (ref.descriptor == "J")) ∧
      insertedAt (own decoders code (index + 1)) index = times n := by
  have hfar : ¬ index + 1 + 1 = index := by omega
  have hasks := h.asks (index + 1)
  generalize own decoders code (index + 1) = found at hasks
  cases hasks with
  | nothing hno =>
      refine .inl ⟨?_, rfl⟩
      rintro ⟨op, ref, n, hinstr, hop, hfactor, -⟩
      rcases hno op ref hinstr with hnone | ⟨-, hfield, hstatic⟩
      · simp [hnone] at hfactor
      · exact hop.elim hfield hstatic
  | read hinstr hop =>
      refine .inl ⟨?_, by simp [hfar]⟩
      rintro ⟨op', ref', n', hinstr', hop', -⟩
      rw [hinstr, Option.some.injEq, Instr.field.injEq] at hinstr'
      obtain ⟨rfl, rfl⟩ := hinstr'
      rcases hop' with rfl | rfl <;> cases hop
  | store _ _ _ hchained => exact .inl ⟨hchained, by simp⟩
  | chained hinstr hop hfactor _ _ hdup =>
      exact .inr ⟨_, _, _, hinstr, hop, hfactor, hdup, by simp [hfar]⟩

theorem chainedDup_ne {op : Opcode} (h : op.isRead ∨ op = Opcode.putField ∨ op = Opcode.putStatic)
    (isStatic wide : Bool) : op ≠ chainedDup isStatic wide := by
  have hcases : op = Opcode.getStatic ∨ op = Opcode.getField ∨ op = Opcode.putField ∨
      op = Opcode.putStatic := by
    rcases h with h | h | h
    · simp only [Opcode.isRead, Bool.or_eq_true, beq_iff_eq] at h
      tauto
    · exact .inr (.inr (.inl h))
    · exact .inr (.inr (.inr h))
  rcases hcases with rfl | rfl | rfl | rfl <;> cases isStatic <;> cases wide <;> decide

/-- Every instruction is wrapped for one of the reasons. -/
theorem wrapped (h : Cancels decoders code) {instr : Instr} (hinstr : code[index]? = some instr) :
    Wrapped decoders code index instr (before decoders code index) (after decoders code index) := by
  rw [before, after]
  have hasks := h.asks index
  have hsucc := insertedAt_own_succ h index
  generalize own decoders code index = found at hasks
  cases hasks with
  | nothing hno =>
      have hplain : ∀ op ref, instr = .field op ref → factor? decoders ref = none ∨
          op.isRead = false ∧ op ≠ Opcode.putField ∧ op ≠ Opcode.putStatic := by
        rintro op ref rfl
        exact hno op ref hinstr
      rcases hsucc with ⟨hnext, hnil⟩ | ⟨op, ref, n, hnext, hop, hfactor, hdup, htimes⟩
      · simpa [hnil] using Wrapped.plain hplain hnext
      · rw [hinstr] at hdup
        simpa [htimes] using Wrapped.duplicate hnext hop hfactor hdup
  | @read op ref n inverse hinstr' hop hfactor hinverse =>
      obtain rfl := Option.some.inj (hinstr.symm.trans hinstr')
      rcases hsucc with ⟨-, hnil⟩ | ⟨op', ref', n', -, -, -, hdup, -⟩
      · simpa [hnil] using Wrapped.read hop hfactor hinverse
      · rw [hinstr] at hdup
        exact absurd (Option.some.inj hdup) (chainedDup_ne (.inl hop) _ _)
  | @store op ref n hinstr' hop hfactor hchained =>
      obtain rfl := Option.some.inj (hinstr.symm.trans hinstr')
      rcases hsucc with ⟨-, hnil⟩ | ⟨op', ref', n', -, -, -, hdup, -⟩
      · simpa [hnil] using Wrapped.store hop hfactor hchained
      · rw [hinstr] at hdup
        exact absurd (Option.some.inj hdup) (chainedDup_ne (.inr hop) _ _)
  | @chained op ref n inverse hinstr' hop hfactor hinverse hpos hdup' =>
      obtain rfl := Option.some.inj (hinstr.symm.trans hinstr')
      rcases hsucc with ⟨-, hnil⟩ | ⟨op', ref', n', -, -, -, hdup, -⟩
      · have hchained : ChainedStore decoders code index :=
          ⟨op, ref, n, hinstr, hop, hfactor, hpos, hdup'⟩
        have hleft : ¬ index - 1 = index := by omega
        have hright : ¬ index - 1 = index + 1 := by omega
        simpa [hnil, hleft, hright] using Wrapped.chained hop hfactor hinverse hchained
      · rw [hinstr] at hdup
        exact absurd (Option.some.inj hdup) (chainedDup_ne (.inr hop) _ _)

theorem getElem?_blocks (decoders : Decoders) {instr : Instr} (hinstr : code[index]? = some instr) :
    (blocks decoders code)[index]? =
      some (before decoders code index ++ [instr] ++ after decoders code index) := by
  simp [blocks, hinstr]

theorem label_not_mem_times (n : Number) (label : Label) : .label label ∉ times n := by
  cases n <;> simp [times]

/-- Labels stay as they are, and there are no new ones. -/
theorem keepsLabels_blocks (h : Cancels decoders code) : KeepsLabels code (blocks decoders code) := by
  rw [KeepsLabels, List.forall₂_iff_get]
  refine ⟨by simp [blocks], ?_⟩
  intro index hindex hindex'
  have hinstr : code[index]? = some code[index] := List.getElem?_eq_getElem hindex
  have hblock := getElem?_blocks decoders hinstr
  rw [List.getElem?_eq_getElem hindex', Option.some.injEq] at hblock
  have hwrapped := wrapped h hinstr
  rw [List.get_eq_getElem, List.get_eq_getElem, hblock]
  generalize code[index] = instr at hwrapped
  generalize before decoders code index = pre at hwrapped
  generalize after decoders code index = post at hwrapped
  cases hwrapped with
  | plain =>
      cases instr with
      | label l => exact .inl ⟨l, rfl, rfl⟩
      | _ => exact .inr ⟨nofun, by simp⟩
  | read | store | chained =>
      exact .inr ⟨nofun, by simp [label_not_mem_times]⟩
  | duplicate _ _ _ hdup =>
      refine .inr ⟨?_, ?_⟩
      · rintro label rfl
        cases hdup
      · intro label hmem
        rw [List.append_nil] at hmem
        rcases List.mem_append.1 hmem with hmem | hmem
        · exact label_not_mem_times _ _ hmem
        · rw [← List.mem_singleton.1 hmem] at hdup
          cases hdup

end Unscramble.Multiplier.Cancel
