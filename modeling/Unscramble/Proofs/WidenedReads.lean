/-
Reads that are widened at once.  Cancelling leaves the product of such a read as it is, lets it be widened, and
multiplies it by the inverse of eight bytes.  But the product was cut off to four bytes before, and the inverse undoes
that only where nothing was lost: the lower half of the result is right, and all of it is where the product of eight
bytes fits into four.
-/
import Unscramble.Proofs.CancelSimulation

namespace Unscramble.Multiplier.Cancel

open Machine

section Arithmetic

variable {content : Int32} {decoder inverse : Int64}

/-- The long that a widened read leaves after the multiplication by the inverse: the field holds the product of four
bytes. -/
def widened (content : Int32) (decoder inverse : Int64) : Int64 :=
  (content * decoder.toInt32).toInt64 * inverse

/-- A number of eight bytes that fits into four. -/
def FitsInt (n : Int64) : Prop :=
  -2147483648 ≤ n.toInt ∧ n.toInt < 2147483648

/-- Cutting a number off and widening it again gives it back only if it fits. -/
theorem toInt64_toInt32_eq_iff (n : Int64) : n.toInt32.toInt64 = n ↔ FitsInt n := by
  rw [← Int64.toInt_inj, Int32.toInt_toInt64, Int64.toInt_toInt32, FitsInt]
  constructor
  · intro h
    have hlower := Int.le_bmod (x := n.toInt) (m := 2 ^ 32) (by decide)
    have hupper := Int.bmod_lt (x := n.toInt) (m := 2 ^ 32) (by decide)
    omega
  · rintro ⟨hlower, hupper⟩
    exact Int.bmod_eq_of_le (by omega) (by omega)

theorem widened_toInt32 (h : decoder * inverse = 1) : (widened content decoder inverse).toInt32 = content := by
  have hhalf : decoder.toInt32 * inverse.toInt32 = 1 := by
    rw [← Int64.toInt32_mul, h]
    rfl
  rw [widened, Int64.toInt32_mul, Int32.toInt32_toInt64, Int32.mul_assoc, hhalf, Int32.mul_one]

theorem widened_eq_iff (h : decoder * inverse = 1) :
    widened content decoder inverse = content.toInt64 ↔ FitsInt (content.toInt64 * decoder) := by
  have hproduct : content * decoder.toInt32 = (content.toInt64 * decoder).toInt32 := by
    rw [Int64.toInt32_mul, Int32.toInt32_toInt64]
  rw [← toInt64_toInt32_eq_iff, widened, hproduct]
  constructor
  · intro heq
    have htimes := congrArg (· * decoder) heq
    simpa only [Int64.mul_assoc, Int64.mul_comm inverse, h, Int64.mul_one] using htimes
  · intro heq
    rw [heq, Int64.mul_assoc, h, Int64.mul_one]

end Arithmetic

section Layout

variable {decoders : Decoders} {code : List Instr} {index : Nat} {op : Opcode} {ref : MemberRef} {decoder : Number}

/-- A widened read asks for a multiplication after the instruction that widens it. -/
theorem own_widened (hok : ∃ answer, insertions decoders code.toArray index = .ok answer)
    (hinstr : code[index]? = some (.field op ref)) (hop : op.isRead) (hint : ref.descriptor = "I")
    (hdecoder : decoders.lookup ref.fieldKey = some decoder)
    (hnext : (code[index + 1]?).bind Instr.opcode? = some Opcode.i2l) :
    ∃ inverse, (toWidth true decoder).inverse? = some inverse ∧
      own decoders code index = [⟨index + 2, times inverse⟩] := by
  obtain ⟨answer, hanswer⟩ := hok
  have haccess := hanswer
  simp only [insertions, List.getElem?_toArray, hinstr, hint, hdecoder, hnext, BEq.rfl, Bool.true_or,
    ↓reduceIte] at haccess
  rcases access_get haccess hop with ⟨-, -, inverse, hinverse, rfl⟩ | ⟨hnarrow, -⟩
  · refine ⟨inverse, hinverse, ?_⟩
    rw [own, hanswer]
    rfl
  · have hwide : ref.descriptor ≠ "J" := by
      rw [hint]
      decide
    exact absurd rfl (hnarrow hwide)

/-- Where an instruction asks for insertions: before or after itself, after the instruction that widens what it reads,
or before the duplication that it stores. -/
theorem position_of_mem_own
    (hok : ∀ index < code.length, ∃ answer, insertions decoders code.toArray index = .ok answer)
    {insertion : Insertion} (h : insertion ∈ own decoders code index) :
    (∃ op ref, code[index]? = some (.field op ref)) ∧
      (insertion.position = index ∨ insertion.position = index + 1 ∨
        insertion.position = index + 2 ∧ (code[index + 1]?).bind Instr.opcode? = some Opcode.i2l ∨
        insertion.position + 1 = index ∧
          ∃ isStatic wide, (code[index - 1]?).bind Instr.opcode? = some (chainedDup isStatic wide)) := by
  have hlt : index < code.length := by
    by_contra hge
    rw [own_of_length_le (Nat.le_of_not_lt hge)] at h
    cases h
  by_cases hwidened : WidenedRead decoders code index
  · obtain ⟨op, ref, n, hinstr, hop, hint, hfactor, hnext⟩ := hwidened
    obtain ⟨decoder, hdecoder, -⟩ : ∃ decoder, decoders.lookup ref.fieldKey = some decoder ∧
        toWidth (ref.descriptor == "J") decoder = n := by
      simpa [factor?, hint] using hfactor
    obtain ⟨inverse, -, hown⟩ := own_widened (hok index hlt) hinstr hop hint hdecoder hnext
    rw [hown, List.mem_singleton] at h
    subst h
    exact ⟨⟨op, ref, hinstr⟩, .inr (.inr (.inl ⟨rfl, hnext⟩))⟩
  · obtain ⟨answer, hanswer⟩ := hok index hlt
    have hasks := asks_of_insertions hanswer hwidened
    rw [own, hanswer] at h
    change insertion ∈ answer.getD [] at h
    generalize answer.getD [] = found at hasks h
    cases hasks with
    | nothing => cases h
    | read hinstr =>
        obtain rfl := List.mem_singleton.1 h
        exact ⟨⟨_, _, hinstr⟩, .inr (.inl rfl)⟩
    | store hinstr =>
        obtain rfl := List.mem_singleton.1 h
        exact ⟨⟨_, _, hinstr⟩, .inl rfl⟩
    | chained hinstr _ _ _ hpos hdup =>
        refine ⟨⟨_, _, hinstr⟩, ?_⟩
        rcases List.mem_cons.1 h with rfl | h
        · exact .inr (.inr (.inr ⟨Nat.sub_add_cancel hpos, _, _, hdup⟩))
        · obtain rfl := List.mem_singleton.1 h
          exact .inr (.inl rfl)

theorem position_le_of_mem_own
    (hok : ∀ index < code.length, ∃ answer, insertions decoders code.toArray index = .ok answer)
    {insertion : Insertion} (h : insertion ∈ own decoders code index) : insertion.position ≤ code.length := by
  obtain ⟨⟨op, ref, hinstr⟩, hposition⟩ := position_of_mem_own hok h
  have hlt : index < code.length := (List.getElem?_eq_some_iff.1 hinstr).1
  rcases hposition with heq | heq | ⟨heq, hnext⟩ | ⟨heq, -⟩
  · omega
  · omega
  · obtain ⟨instr, hnext, -⟩ := Option.bind_eq_some_iff.1 hnext
    have hlt' : index + 1 < code.length := (List.getElem?_eq_some_iff.1 hnext).1
    omega
  · omega

/-- The new code from its start, each instruction with what stands after it. -/
theorem insertAll_eq_shift {found : List Insertion} (hto : ∀ i ∈ found, i.position ≤ code.length) :
    insertAll found code =
      insertedAt found 0 ++ code.zipIdx.flatMap fun p => p.1 :: insertedAt found (p.2 + 1) := by
  have hshift := flatMap_zipIdx_shift (insertedAt found) (fun _ => []) code 0
  simp only [List.append_nil, List.nil_append, List.singleton_append, Nat.zero_add] at hshift
  rw [insertAll_eq hto, hshift]

/-- Instructions stay in order where others are put between them. -/
theorem sublist_flatMap_zipIdx (post : Nat → List Instr) (code : List Instr) (first : Nat) :
    code.Sublist ((code.zipIdx first).flatMap fun p => p.1 :: post p.2) := by
  induction code generalizing first with
  | nil => exact List.Sublist.slnil
  | cons instr rest ih =>
      rw [List.zipIdx_cons, List.flatMap_cons, List.cons_append]
      exact ((ih (first + 1)).trans (List.sublist_append_right _ _)).cons_cons instr

/-- At an index an `int` field with a decoder is read and widened at once, in code that can be rewritten. -/
structure Widens (decoders : Decoders) (code : List Instr) (index : Nat) (op : Opcode) (ref : MemberRef)
    (decoder : Number) : Prop where
  ok : ∀ index < code.length, ∃ answer, insertions decoders code.toArray index = .ok answer
  read : code[index]? = some (.field op ref)
  widen : code[index + 1]? = some (.simple Opcode.i2l)
  isRead : op.isRead
  int : ref.descriptor = "I"
  decoder : decoders.lookup ref.fieldKey = some decoder

namespace Widens

theorem lt_length (h : Widens decoders code index op ref decoder) : index + 1 < code.length :=
  (List.getElem?_eq_some_iff.1 h.widen).1

theorem exists_own (h : Widens decoders code index op ref decoder) :
    ∃ inverse, (toWidth true decoder).inverse? = some inverse ∧
      own decoders code index = [⟨index + 2, times inverse⟩] :=
  own_widened (h.ok index (Nat.lt_of_succ_lt h.lt_length)) h.read h.isRead h.int h.decoder (by rw [h.widen]; rfl)

/-- What is put in front of an index is what some instruction asks for there. -/
theorem insertedAt_all_eq_nil {position : Nat}
    (h : ∀ i, ∀ insertion ∈ own decoders code i, insertion.position ≠ position) :
    insertedAt ((List.range code.length).flatMap (own decoders code)) position = [] := by
  refine insertedAt_eq_nil fun insertion hmem => ?_
  obtain ⟨i, -, hi⟩ := List.mem_flatMap.1 hmem
  exact h i insertion hi

/-- Nothing comes between the read and the instruction that widens it. -/
theorem insertedAt_between (h : Widens decoders code index op ref decoder) :
    insertedAt ((List.range code.length).flatMap (own decoders code)) (index + 1) = [] := by
  refine insertedAt_all_eq_nil fun i insertion hi heq => ?_
  obtain ⟨⟨op', ref', hinstr⟩, hposition⟩ := position_of_mem_own h.ok hi
  rcases hposition with hat | hat | ⟨hat, hnext⟩ | ⟨hat, isStatic, wide, hdup⟩
  · rw [← hat, heq, h.widen] at hinstr
    cases hinstr
  · obtain rfl : i = index := by omega
    obtain ⟨inverse, -, hown⟩ := h.exists_own
    rw [hown, List.mem_singleton] at hi
    subst hi
    simp at heq
  · rw [show i + 1 = index by omega, h.read] at hnext
    obtain rfl : op = Opcode.i2l := Option.some.inj hnext
    cases h.isRead
  · have hnotDup : ∀ isStatic wide, Opcode.i2l ≠ chainedDup isStatic wide := by decide
    rw [show i - 1 = index + 1 by omega, h.widen] at hdup
    exact hnotDup isStatic wide (Option.some.inj hdup)

/-- The multiplication comes first after the instruction that widens. -/
theorem insertedAt_after (h : Widens decoders code index op ref decoder) {inverse : Number}
    (hown : own decoders code index = [⟨index + 2, times inverse⟩]) :
    ∃ others, insertedAt ((List.range code.length).flatMap (own decoders code)) (index + 2) =
      times inverse ++ others := by
  obtain ⟨extra, hextra⟩ := Nat.exists_eq_add_of_le (Nat.le_of_lt h.lt_length)
  have hearlier : (List.range' 0 index).flatMap (fun i => insertedAt (own decoders code i) (index + 2)) = [] := by
    rw [List.flatMap_eq_nil_iff]
    intro i hi
    have hlt := (List.mem_range'_1.1 hi).2
    refine insertedAt_eq_nil fun insertion hmem => ?_
    obtain ⟨-, hposition⟩ := position_of_mem_own h.ok hmem
    omega
  rw [insertedAt_flatMap, hextra, List.range_eq_range', Nat.add_assoc, ← List.range'_append_1, List.flatMap_append,
    hearlier, List.nil_append, Nat.zero_add, Nat.add_comm 1 extra, List.range'_succ, List.flatMap_cons, hown,
    insertedAt_cons, if_pos rfl, insertedAt_nil, List.append_nil]
  exact ⟨_, rfl⟩

/-- Nothing comes before a read at the start. -/
theorem insertedAt_start (h : Widens decoders code 0 op ref decoder) :
    insertedAt ((List.range code.length).flatMap (own decoders code)) 0 = [] := by
  refine insertedAt_all_eq_nil fun i insertion hi heq => ?_
  obtain ⟨⟨op', ref', hinstr⟩, hposition⟩ := position_of_mem_own h.ok hi
  obtain ⟨inverse, -, hown⟩ := h.exists_own
  obtain rfl | rfl : i = 0 ∨ i = 1 := by omega
  · rw [hown, List.mem_singleton] at hi
    subst hi
    simp at heq
  · rw [h.widen] at hinstr
    cases hinstr

end Widens

/-- A widened read and the instruction that widens it stay together, and the multiplication stands right after them. -/
theorem insertAll_widened {pre rest : List Instr} (hcode : code = pre ++ .field op ref :: .simple Opcode.i2l :: rest)
    (h : Widens decoders code pre.length op ref decoder) :
    ∃ inverse front back, (toWidth true decoder).inverse? = some inverse ∧
      insertAll ((List.range code.length).flatMap (own decoders code)) code =
        front ++ .field op ref :: .simple Opcode.i2l :: (times inverse ++ back) ∧
      pre.Sublist front ∧ rest.Sublist back ∧ (pre = [] → front = []) := by
  obtain ⟨inverse, hinverse, hown⟩ := h.exists_own
  obtain ⟨others, hothers⟩ := h.insertedAt_after hown
  have hbetween := h.insertedAt_between
  have hstart : pre = [] → insertedAt ((List.range code.length).flatMap (own decoders code)) 0 = [] := by
    rintro rfl
    exact h.insertedAt_start
  have hto : ∀ i ∈ (List.range code.length).flatMap (own decoders code), i.position ≤ code.length := by
    intro i hi
    obtain ⟨index, -, hi⟩ := List.mem_flatMap.1 hi
    exact position_le_of_mem_own h.ok hi
  generalize (List.range code.length).flatMap (own decoders code) = found at hothers hbetween hstart hto ⊢
  refine ⟨inverse, insertedAt found 0 ++ pre.zipIdx.flatMap fun p => p.1 :: insertedAt found (p.2 + 1),
    others ++ (rest.zipIdx (pre.length + 2)).flatMap fun p => p.1 :: insertedAt found (p.2 + 1),
    hinverse, ?_, ?_, ?_, ?_⟩
  · rw [insertAll_eq_shift hto, hcode, List.zipIdx_append]
    simp only [List.zipIdx_cons, List.flatMap_append, List.flatMap_cons, Nat.zero_add, hbetween, hothers,
      List.append_assoc, List.cons_append, List.nil_append]
  · exact (sublist_flatMap_zipIdx (fun i => insertedAt found (i + 1)) pre 0).trans (List.sublist_append_right _ _)
  · exact (sublist_flatMap_zipIdx (fun i => insertedAt found (i + 1)) rest _).trans (List.sublist_append_right _ _)
  · rintro rfl
    rw [hstart rfl]
    rfl

end Layout

section Execution

variable {σ : Type} {decoders : Decoders} {m m' : MethodDecl} {w w' : World σ} {op : Opcode} {ref : MemberRef}
  {decoder : Number} {place : Place} {stack below : List Value} {memory : Memory σ} {locals : UInt16 → Value}
  {content : Int32} {pc : Nat}

/-- The place that a read fetches from, and what is left of the stack. -/
def fetched? (op : Opcode) (ref : MemberRef) (stack : List Value) : Option (Place × List Value) :=
  match op, stack with
  | Opcode.getStatic, stack => some (⟨none, ref⟩, stack)
  | Opcode.getField, .ref (some address) :: rest => some (⟨some address, ref⟩, rest)
  | _, _ => none

theorem fetched?_field (h : fetched? op ref stack = some (place, below)) : place.field = ref := by
  unfold fetched? at h
  split at h <;> cases h <;> rfl

theorem exec_fetched (hkind : ref.kind? = some (memory.fields place).kind)
    (h : fetched? op ref stack = some (place, below)) :
    exec w (.field op ref) ⟨locals, stack, memory⟩ = .next ⟨locals, memory.fields place :: below, memory⟩ := by
  unfold fetched? at h
  split at h
  · cases h
    exact (exec_getStatic hkind).trans (if_pos rfl)
  · cases h
    exact (exec_getField hkind _).trans (if_pos rfl)
  · cases h

/-- A read that is widened at once leaves the long of the same value. -/
theorem leads_widened (hread : m.code[pc]? = some (.field op ref))
    (hwiden : m.code[pc + 1]? = some (.simple Opcode.i2l)) (hkind : ref.kind? = some .int)
    (hfetched : fetched? op ref stack = some (place, below)) (hcontent : memory.fields place = .int content) :
    Leads w m (.running pc ⟨locals, stack, memory⟩) [pc, pc + 1]
      (.running (pc + 2) ⟨locals, .long content.toInt64 :: below, memory⟩) := by
  have hfirst := Leads.single (w := w) (s := ⟨locals, stack, memory⟩) hread
  rw [exec_fetched (by rw [hkind, hcontent]; rfl) hfetched, hcontent] at hfirst
  exact hfirst.trans (Leads.single (s := ⟨locals, .int content :: below, memory⟩) hwiden)

theorem factor?_int (hint : ref.descriptor = "I") (hdecoder : decoders.lookup ref.fieldKey = some decoder) :
    factor? decoders ref = some (.int decoder.toInt64.toInt32) := by
  simp [factor?, hint, hdecoder, toWidth]

/-- With the multiplication after it, a read of the encoded field leaves the product of its content. -/
theorem leads_widened_times {inverse : Int64} (hread : m'.code[pc]? = some (.field op ref))
    (hwiden : m'.code[pc + 1]? = some (.simple Opcode.i2l))
    (htimes : ∀ i < 2, m'.code[pc + 2 + i]? = (times (.long inverse))[i]?)
    (hint : ref.descriptor = "I") (hdecoder : decoders.lookup ref.fieldKey = some decoder)
    (hfetched : fetched? op ref stack = some (place, below)) (hcontent : memory.fields place = .int content) :
    Leads w' m' (.running pc ⟨locals, stack, memory.encode decoders⟩) [pc, pc + 1, pc + 2, pc + 3]
      (.running (pc + 4)
        ⟨locals, .long (widened content decoder.toInt64 inverse) :: below, memory.encode decoders⟩) := by
  have hfactor := factor?_int hint hdecoder
  have hencoded : (memory.encode decoders).fields place = .int (content * decoder.toInt64.toInt32) := by
    show encoded decoders place.field (memory.fields place) = _
    rw [fetched?_field hfetched, encoded_of_factor hfactor, hcontent]
    rfl
  exact (leads_widened hread hwiden (factor?_kind hfactor).1 hfetched hencoded).trans
    (leads_times htimes rfl locals below (memory.encode decoders))

/-- Cancelling keeps the lower half of a read that is widened at once, and all of it exactly where the product of the
content and the decoder fits into four bytes.  Such a read stands in the new method with the multiplication right after
it; it may stand anywhere, with an object on the stack or without one. -/
theorem cancel_widened_read {count : Nat} {pre rest : List Instr} (h : cancel decoders m = .ok (m', count))
    (hcode : m.code = pre ++ .field op ref :: .simple Opcode.i2l :: rest) (hop : op.isRead)
    (hint : ref.descriptor = "I") (hdecoder : decoders.lookup ref.fieldKey = some decoder) :
    ∃ inverse front back, decoder.toInt64 * inverse = 1 ∧
      m'.code = front ++ .field op ref :: .simple Opcode.i2l :: .ldc (.long inverse) :: .simple Opcode.lmul :: back ∧
      pre.Sublist front ∧ rest.Sublist back ∧ (pre = [] → front = []) ∧
      ∀ (σ : Type) (w w' : World σ) (s : Store σ) (place : Place) (below : List Value) (content : Int32),
        fetched? op ref s.stack = some (place, below) → s.memory.fields place = .int content →
        run w m 2 (.running pre.length s) =
            .running (pre.length + 2) ⟨s.locals, .long content.toInt64 :: below, s.memory⟩ ∧
          ∃ v, run w' m' 4 (.running front.length (s.encode decoders)) =
              .running (front.length + 4) ⟨s.locals, .long v :: below, s.memory.encode decoders⟩ ∧
            v.toInt32 = content ∧ (v = content.toInt64 ↔ FitsInt (content.toInt64 * decoder.toInt64)) := by
  obtain ⟨hok, rfl⟩ := cancel_eq_insertAll h
  have hwidens : Widens decoders m.code pre.length op ref decoder :=
    ⟨hok, by simp [hcode], by simp [hcode], hop, hint, hdecoder⟩
  obtain ⟨inverse, front, back, hinverse, hnew, hpre, hrest, hstart⟩ := insertAll_widened hcode hwidens
  obtain ⟨_, _, hdec, -, -⟩ | ⟨_, inverse, hdec, rfl, hone⟩ := Number.inverse?_cases hinverse
  · cases hdec
  obtain rfl := Number.long.inj hdec
  refine ⟨inverse, front, back, hone, hnew, hpre, hrest, hstart, ?_⟩
  intro σ w w' s place below content hfetched hcontent
  have hkind : ref.kind? = some .int := (factor?_kind (factor?_int hint hdecoder)).1
  refine ⟨(leads_widened hwidens.read hwidens.widen hkind hfetched hcontent).1,
    widened content decoder.toInt64 inverse, ?_, widened_toInt32 hone, widened_eq_iff hone⟩
  refine (leads_widened_times ?_ ?_ ?_ hint hdecoder hfetched hcontent).1
  · simp [hnew]
  · simp [hnew]
  · intro i hi
    have htwo : i < (times (.long inverse)).length := hi
    simp only [hnew]
    rw [Nat.add_assoc, List.getElem?_append_right (Nat.le_add_right _ _), Nat.add_sub_cancel_left, Nat.add_comm 2 i,
      List.getElem?_cons_succ, List.getElem?_cons_succ, List.getElem?_append_left htwo]

/-- A method that returns an `int` field as a `long`. -/
def widening : MethodDecl :=
  { name := "read", descriptor := "()J", access := Access.staticBit, code :=
    [.field Opcode.getStatic ⟨"A", "x", "I"⟩, .simple Opcode.i2l, .simple Opcode.lreturn] }

/-- The same method after cancelling with the decoder 3. -/
def widenedTimes : MethodDecl :=
  { widening with code :=
    [.field Opcode.getStatic ⟨"A", "x", "I"⟩, .simple Opcode.i2l, .ldc (.long (-6148914691236517205)),
      .simple Opcode.lmul, .simple Opcode.lreturn] }

theorem cancel_widening : cancel [("A.x", .int 3)] widening = .ok (widenedTimes, 1) := by
  have hfound : (List.range widening.code.length).filterMapM (insertions [("A.x", .int 3)] widening.code.toArray) =
      .ok [[⟨2, times (.long (-6148914691236517205))⟩]] := by
    decide +kernel
  rw [cancel_of_insertions hfound (by decide)]
  decide

/-- The memory in which every field holds the same number. -/
def filled (n : Int32) : Memory Unit :=
  ⟨fun _ => .int n, ()⟩

/-- Of 7 nothing is lost, and the new method still widens 7. -/
theorem widening_keeps_seven : cancel [("A.x", .int 3)] widening = .ok (widenedTimes, 1) ∧
    run still widening 2 (.running 0 ⟨fun _ => .int 0, [], filled 7⟩) =
      .running 2 ⟨fun _ => .int 0, [.long 7], filled 7⟩ ∧
    run still widenedTimes 4 (.running 0 ⟨fun _ => .int 0, [], (filled 7).encode [("A.x", .int 3)]⟩) =
      .running 4 ⟨fun _ => .int 0, [.long 7], (filled 7).encode [("A.x", .int 3)]⟩ := by
  have hcode : widening.code = [] ++ .field Opcode.getStatic ⟨"A", "x", "I"⟩ :: .simple Opcode.i2l ::
      [.simple Opcode.lreturn] := rfl
  obtain ⟨inverse, front, back, -, -, -, -, hstart, hrun⟩ := cancel_widened_read cancel_widening hcode rfl rfl rfl
  obtain rfl := hstart rfl
  obtain ⟨hplain, v, hnew, -, hiff⟩ := hrun Unit still still ⟨fun _ => .int 0, [], filled 7⟩ _ [] 7 rfl rfl
  have hfits : FitsInt ((7 : Int32).toInt64 * (Number.int 3).toInt64) := ⟨by decide, by decide⟩
  obtain rfl := hiff.2 hfits
  exact ⟨cancel_widening, hplain, hnew⟩

/-- The product of 2 ^ 30 and 3 does not fit into four bytes, and the new method returns another number. -/
theorem widening_changes_value : cancel [("A.x", .int 3)] widening = .ok (widenedTimes, 1) ∧
    run still widening 3 (.running 0 ⟨fun _ => .int 0, [], filled 1073741824⟩) =
      .returned (some (.long 1073741824)) (filled 1073741824) ∧
    run still widenedTimes 5 (.running 0 ⟨fun _ => .int 0, [], (filled 1073741824).encode [("A.x", .int 3)]⟩) =
      .returned (some (.long 6148914690878603264)) ((filled 1073741824).encode [("A.x", .int 3)]) := by
  have hkind : MemberRef.kind? ⟨"A", "x", "I"⟩ = some .int := by decide +kernel
  have hvalue : widened 1073741824 (Number.int 3).toInt64 (-6148914691236517205) = 6148914690878603264 := by decide
  have hlong : Int32.toInt64 1073741824 = 1073741824 := by decide
  have hplain : Leads still widening (.running 0 ⟨fun _ => .int 0, [], filled 1073741824⟩) [0, 1]
      (.running 2 ⟨fun _ => .int 0, [.long 1073741824], filled 1073741824⟩) := by
    rw [← hlong]
    exact leads_widened rfl rfl hkind rfl rfl
  have hnew : Leads still widenedTimes
      (.running 0 ⟨fun _ => .int 0, [], (filled 1073741824).encode [("A.x", .int 3)]⟩) [0, 1, 2, 3]
      (.running 4
        ⟨fun _ => .int 0, [.long 6148914690878603264], (filled 1073741824).encode [("A.x", .int 3)]⟩) := by
    rw [← hvalue]
    exact leads_widened_times rfl rfl (by decide) rfl rfl rfl rfl
  exact ⟨cancel_widening, (hplain.trans (Leads.single rfl)).1, (hnew.trans (Leads.single rfl)).1⟩

end Execution

end Unscramble.Multiplier.Cancel
