/-
Cancelling the multipliers of a method is a simulation.  The new method, started in the encoded memory,
executes the instructions of the old one in the same order, with the multiplications in between, and whenever
the old run stands between two instructions, the new one reaches the same locals and the same stack, in the
encoded memory.  The only exception is the place between a duplication and the store that it belongs to,
where both copies of the value are still products.
-/
import Unscramble.Proofs.Encoding

namespace Unscramble.Multiplier.Cancel

open Machine

variable {σ : Type} {decoders : Decoders} {code : List Instr} {m : MethodDecl} {w w' : World σ}
  {index offset : Nat} {instr : Instr}

/-- Where the block of an instruction starts in the new code. -/
def entry (decoders : Decoders) (code : List Instr) (index : Nat) : Nat :=
  blockStart (blocks decoders code) index

/-- Where an instruction stands in the new code. -/
def place (decoders : Decoders) (code : List Instr) (index : Nat) : Nat :=
  entry decoders code index + (before decoders code index).length

/-- The places of all instructions in the new code; between them are the multiplications. -/
def places (decoders : Decoders) (code : List Instr) : List Nat :=
  (List.range code.length).map (place decoders code)

/-- The configuration of the new method that belongs to one of the old method. -/
def recoded (decoders : Decoders) (code : List Instr) : Config σ → Config σ
  | .running pc s => .running (entry decoders code pc) (s.encode decoders)
  | .returned result memory => .returned result (memory.encode decoders)
  | .thrown exception memory => .thrown exception (memory.encode decoders)
  | .stuck => .stuck

/-- A run that has ended well, or stands between two instructions that are not a duplication and its
store. -/
def Settled (decoders : Decoders) (code : List Instr) : Config σ → Prop
  | .running pc _ => ¬ ChainedStore decoders code pc
  | .returned _ _ | .thrown _ _ => True
  | .stuck => False

/-- The new method. -/
def cancelled (decoders : Decoders) (m : MethodDecl) : MethodDecl :=
  { m with code := (blocks decoders m.code).flatten }

section Places

theorem entry_succ (decoders : Decoders) (hinstr : code[index]? = some instr) :
    entry decoders code (index + 1) = entry decoders code index +
      (before decoders code index).length + 1 + (after decoders code index).length := by
  rw [entry, blockStart_succ (getElem?_blocks decoders hinstr), entry]
  simp only [List.length_append, List.length_singleton]
  omega

theorem getElem?_cancelled (decoders : Decoders) (hinstr : m.code[index]? = some instr) (offset : Nat)
    (hoffset : offset < (before decoders m.code index ++ [instr] ++ after decoders m.code index).length) :
    (cancelled decoders m).code[entry decoders m.code index + offset]? =
      (before decoders m.code index ++ [instr] ++ after decoders m.code index)[offset]? :=
  getElem?_flatten_blockStart (getElem?_blocks decoders hinstr) hoffset

/-- Of a block, only the instruction itself stands at a place of the old code. -/
theorem mem_places_iff (hinstr : code[index]? = some instr)
    (hoffset : offset < (before decoders code index ++ [instr] ++ after decoders code index).length) :
    entry decoders code index + offset ∈ places decoders code ↔
      offset = (before decoders code index).length := by
  rw [places, List.mem_map]
  constructor
  · rintro ⟨other, hother, heq⟩
    have hle := (blockStart_le_iff (getElem?_blocks decoders hinstr) hoffset other).1
    have hlt : other < code.length := List.mem_range.1 hother
    have hsize : (before decoders code other).length <
        (before decoders code other ++ [code[other]] ++ after decoders code other).length := by simp
    have hge := (blockStart_le_iff (getElem?_blocks decoders (List.getElem?_eq_getElem hlt)) hsize
      index).1
    simp only [place, entry] at heq
    obtain rfl : other = index := Nat.le_antisymm (hle (by omega)) (hge (by omega))
    omega
  · rintro rfl
    refine ⟨index, List.mem_range.2 ?_, rfl⟩
    exact (List.getElem?_eq_some_iff.1 hinstr).1

end Places

/-- A step of the new method that ends a block, or leaves it, goes where the step of the old method goes. -/
theorem proceed_recoded (hc : Cancels decoders m.code) (hw : World.Recodes decoders w w')
    (hinstr : m.code[index]? = some instr) (offset : Nat)
    (hoffset : offset < (before decoders m.code index ++ [instr] ++ after decoders m.code index).length)
    (action : Action σ) (hlast : ∀ s, action = .next s →
      offset + 1 = (before decoders m.code index ++ [instr] ++ after decoders m.code index).length)
    (locals : UInt16 → Value) :
    proceed w' (cancelled decoders m) (entry decoders m.code index + offset) locals
        (action.encode decoders) =
      recoded decoders m.code (proceed w m index locals action) := by
  have hlabels := keepsLabels_blocks hc
  cases action with
  | next s =>
      have hlength := hlast s rfl
      simp only [List.length_append, List.length_singleton] at hlength
      simp only [Action.encode, proceed, recoded, entry_succ decoders hinstr]
      congr 1
      omega
  | jump target s =>
      simp only [Action.encode, proceed, cancelled, place?_flatten hlabels]
      cases place? (labelPlaces m.code) target <;> rfl
  | leave result memory => rfl
  | throw exception memory =>
      have hhandler := handler?_flatten hlabels (getElem?_blocks decoders hinstr) hoffset
        fun type => hw.catches type exception memory
      simp only [Action.encode, proceed, cancelled, entry]
      rw [hhandler]
      split
      · cases handler? w m index exception memory <;> rfl
      · rfl
  | stuck => rfl

theorem not_chainedStore_of_label {label : Label} (h : code[index]? = some (.label label)) :
    ¬ ChainedStore decoders code index := by
  rintro ⟨op, ref, n, hinstr, -⟩
  rw [h] at hinstr
  cases hinstr

/-- After a field access there is no duplication. -/
theorem not_chainedStore_succ {op : Opcode} {ref : MemberRef}
    (hinstr : code[index]? = some (.field op ref))
    (hop : op.isRead ∨ op = Opcode.putField ∨ op = Opcode.putStatic) :
    ¬ ChainedStore decoders code (index + 1) := by
  rintro ⟨op', ref', n, -, -, -, -, hdup⟩
  rw [Nat.add_sub_cancel, hinstr] at hdup
  exact chainedDup_ne hop _ _ (Option.some.inj hdup)

/-- Jumps and handlers never lead between a duplication and its store. -/
theorem settled_proceed (decoders : Decoders) (w : World σ) (action : Action σ) (locals : UInt16 → Value)
    (hnext : ∀ s, action = .next s → ¬ ChainedStore decoders m.code (index + 1)) :
    proceed w m index locals action = .stuck ∨
      Settled decoders m.code (proceed w m index locals action) := by
  cases action with
  | next s => exact .inr (hnext s rfl)
  | jump target s =>
      rw [proceed]
      cases hplace : place? (labelPlaces m.code) target with
      | none => exact .inl rfl
      | some found => exact .inr (not_chainedStore_of_label (place?_labelPlaces hplace))
  | leave result memory => exact .inr trivial
  | throw exception memory =>
      rw [proceed]
      split
      · cases hhandler : handler? w m index exception memory with
        | none => exact .inr trivial
        | some found =>
            obtain ⟨label, hlabel⟩ := handler?_eq_some hhandler
            exact .inr (not_chainedStore_of_label hlabel)
      · exact .inl rfl
  | stuck => exact .inl rfl

/-- The first steps in a block, past its instruction, contain that instruction and no other one of the old
code. -/
theorem filter_block {count : Nat} (hinstr : code[index]? = some instr)
    (hcount : count ≤ (before decoders code index ++ [instr] ++ after decoders code index).length)
    (hpast : (before decoders code index).length < count) :
    ((List.range count).map (entry decoders code index + ·)).filter
      (· ∈ places decoders code) = [place decoders code index] := by
  have hsame : (List.range count).filter
      ((fun i => decide (i ∈ places decoders code)) ∘ (entry decoders code index + ·)) =
        (List.range count).filter (· == (before decoders code index).length) := by
    apply List.filter_congr
    intro offset hoffset
    have hlt := List.mem_range.1 hoffset
    have hmem : entry decoders code index + offset ∈ places decoders code ↔
        offset = (before decoders code index).length :=
      mem_places_iff hinstr (Nat.lt_of_lt_of_le hlt hcount)
    rw [Function.comp_apply, decide_eq_decide.2 hmem]
    rfl
  have hone : (List.range count).count (before decoders code index).length = 1 := by
    rw [List.count_range, if_pos hpast]
  rw [List.filter_map, hsame, List.filter_beq, hone]
  rfl

@[simp] theorem length_times (n : Number) : (times n).length = 2 := by
  cases n <;> rfl

/-- A multiplication with a constant. -/
theorem leads_times {n : Number} {pc : Nat} {v : Value}
    (hcode : ∀ i < 2, m.code[pc + i]? = (times n)[i]?) (hkind : v.kind = n.kind)
    (locals : UInt16 → Value) (rest : List Value) (memory : Memory σ) :
    Leads w m (.running pc ⟨locals, v :: rest, memory⟩) [pc, pc + 1]
      (.running (pc + 2) ⟨locals, n.timesValue v :: rest, memory⟩) := by
  have hfirst := hcode 0 (by decide)
  have hsecond := hcode 1 (by decide)
  cases n with
  | int n =>
      cases v with
      | int a =>
          exact (Leads.single (s := ⟨locals, .int a :: rest, memory⟩) hfirst).trans
            (Leads.single (s := ⟨locals, .int n :: .int a :: rest, memory⟩) hsecond)
      | _ => cases hkind
  | long n =>
      cases v with
      | long a =>
          exact (Leads.single (s := ⟨locals, .long a :: rest, memory⟩) hfirst).trans
            (Leads.single (s := ⟨locals, .long n :: .long a :: rest, memory⟩) hsecond)
      | _ => cases hkind

/-- The new method follows a run of the old one over a trail. -/
def Follows (decoders : Decoders) (m : MethodDecl) (w' : World σ) (c : Config σ) (trail : List Nat)
    (c' : Config σ) : Prop :=
  ∃ new, Leads w' (cancelled decoders m) (recoded decoders m.code c) new
      (recoded decoders m.code c') ∧
    new.filter (· ∈ places decoders m.code) = trail.map (place decoders m.code)

theorem Follows.trans {c c' c'' : Config σ} {first last : List Nat}
    (h : Follows decoders m w' c first c') (h' : Follows decoders m w' c' last c'') :
    Follows decoders m w' c (first ++ last) c'' := by
  obtain ⟨new, hnew, hfilter⟩ := h
  obtain ⟨new', hnew', hfilter'⟩ := h'
  exact ⟨new ++ new', hnew.trans hnew', by rw [List.filter_append, hfilter, hfilter', List.map_append]⟩

/-- A run goes on for one or more steps, until it is stuck or settled again; then the new method has followed
it. -/
def Advances (decoders : Decoders) (m : MethodDecl) (w w' : World σ) (c : Config σ) : Prop :=
  ∃ trail c', trail ≠ [] ∧ Leads w m c trail c' ∧
    (∀ k, 0 < k → k < trail.length → ¬ Settled decoders m.code (run w m k c)) ∧
    (c' = .stuck ∨ Settled decoders m.code c' ∧ Follows decoders m w' c trail c')

/-- A single step that the new method follows. -/
theorem advances_of_step {s : Store σ} (hinstr : m.code[index]? = some instr)
    (hnext : ∀ s', exec w instr s = .next s' → ¬ ChainedStore decoders m.code (index + 1))
    (h : exec w instr s = .stuck ∨ Follows decoders m w' (.running index s) [index]
      (proceed w m index s.locals (exec w instr s))) :
    Advances decoders m w w' (.running index s) := by
  refine ⟨[index], _, by simp, Leads.single hinstr, ?_, ?_⟩
  · intro k hk hlt
    simp only [List.length_singleton] at hlt
    omega
  · rcases h with hstuck | hfollows
    · rw [hstuck]
      exact .inl rfl
    · rcases settled_proceed decoders w _ s.locals hnext with hstuck | hsettled
      · exact .inl hstuck
      · exact .inr ⟨hsettled, hfollows⟩

/-- A run of the new method through the first instructions of a block, past its own instruction, follows a
single step. -/
theorem follows_block {c c' : Config σ} (hinstr : m.code[index]? = some instr) (count : Nat)
    (hcount : count ≤ (before decoders m.code index ++ [instr] ++ after decoders m.code index).length)
    (hpast : (before decoders m.code index).length < count)
    (h : Leads w' (cancelled decoders m) (recoded decoders m.code c)
      ((List.range count).map (entry decoders m.code index + ·)) (recoded decoders m.code c')) :
    Follows decoders m w' c [index] c' :=
  ⟨_, h, filter_block hinstr hcount hpast⟩

theorem exec_field_other {op : Opcode} {ref : MemberRef} {n : Number} {s : Store σ}
    (hfactor : factor? decoders ref = some n) (hread : op.isRead = false)
    (hfield : op ≠ Opcode.putField) (hstatic : op ≠ Opcode.putStatic) :
    exec w (.field op ref) s = .stuck := by
  have heffect := ofInstr_field (factor?_kind hfactor).1 op
  have hfault : Effect.ofFieldAccess op n.kind = .error (.field op) := by
    unfold Effect.ofFieldAccess
    split
    · cases hread
    · exact absurd rfl hstatic
    · cases hread
    · exact absurd rfl hfield
    · rfl
  rw [exec, heffect, hfault]

theorem advances_plain (hc : Cancels decoders m.code) (hw : World.Recodes decoders w w')
    (hinstr : m.code[index]? = some instr)
    (hplain : ∀ op ref, instr = .field op ref → factor? decoders ref = none ∨
      op.isRead = false ∧ op ≠ Opcode.putField ∧ op ≠ Opcode.putStatic)
    (hnext : ¬ ChainedStore decoders m.code (index + 1))
    (hbefore : before decoders m.code index = []) (hafter : after decoders m.code index = [])
    (s : Store σ) : Advances decoders m w w' (.running index s) := by
  apply advances_of_step hinstr (fun _ _ => hnext)
  by_cases hfields : ∀ op ref, instr = .field op ref → factor? decoders ref = none
  · right
    have hlength : (before decoders m.code index ++ [instr] ++ after decoders m.code index).length = 1 := by
      simp [hbefore, hafter]
    have hget := getElem?_cancelled decoders hinstr 0 (by omega)
    have hproceed := proceed_recoded hc hw hinstr 0 (by omega) (exec w instr s)
      (fun _ _ => hlength.symm) s.locals
    rw [← exec_encode hw hfields] at hproceed
    apply follows_block hinstr 1 (by omega) (by simp [hbefore])
    rw [← hproceed]
    apply Leads.single
    simpa [hbefore, hafter] using hget
  · left
    push Not at hfields
    obtain ⟨op, ref, rfl, hsome⟩ := hfields
    obtain ⟨n, hfactor⟩ := Option.ne_none_iff_exists'.1 hsome
    rcases hplain op ref rfl with hnone | ⟨hread, hfield, hstatic⟩
    · exact absurd hnone hsome
    · exact exec_field_other hfactor hread hfield hstatic

/-- The block of an instruction with a multiplication after it. -/
theorem getElem?_times_after {n : Number} (hinstr : m.code[index]? = some instr)
    (hbefore : before decoders m.code index = []) (hafter : after decoders m.code index = times n) :
    (cancelled decoders m).code[entry decoders m.code index]? = some instr ∧
      ∀ i < 2, (cancelled decoders m).code[entry decoders m.code index + 1 + i]? = (times n)[i]? := by
  have hlength : (before decoders m.code index ++ [instr] ++ after decoders m.code index).length = 3 := by
    simp [hbefore, hafter]
  constructor
  · have hget := getElem?_cancelled decoders hinstr 0 (by omega)
    simpa [hbefore] using hget
  · intro i hi
    have hget := getElem?_cancelled decoders hinstr (1 + i) (by omega)
    rw [← Nat.add_assoc] at hget
    rw [hget, hbefore, hafter, Nat.add_comm 1 i]
    rfl

/-- The block of an instruction with a multiplication before it. -/
theorem getElem?_times_before {n : Number} (hinstr : m.code[index]? = some instr)
    (hbefore : before decoders m.code index = times n) (hafter : after decoders m.code index = []) :
    (cancelled decoders m).code[entry decoders m.code index + 2]? = some instr ∧
      ∀ i < 2, (cancelled decoders m).code[entry decoders m.code index + i]? = (times n)[i]? := by
  have hlength : (before decoders m.code index ++ [instr] ++ after decoders m.code index).length = 3 := by
    simp [hbefore, hafter]
  constructor
  · have hget := getElem?_cancelled decoders hinstr 2 (by omega)
    simpa [hbefore, hafter, List.getElem?_append] using hget
  · intro i hi
    have hget := getElem?_cancelled decoders hinstr i (by omega)
    simpa [hbefore, hafter, List.getElem?_append, hi] using hget

/-- An instruction that leaves a product in the new method, which is then made plain again. -/
theorem leads_inverse (hc : Cancels decoders m.code) (hw : World.Recodes decoders w w')
    {n inverse : Number} (hinstr : m.code[index]? = some instr) (hinverse : n.inverse? = some inverse)
    (hbefore : before decoders m.code index = [])
    (hafter : after decoders m.code index = times inverse) {s s' : Store σ}
    (h : LeavesProduct decoders w w' n instr s s') :
    ∃ count, 0 < count ∧
      count ≤ (before decoders m.code index ++ [instr] ++ after decoders m.code index).length ∧
      Leads w' (cancelled decoders m) (.running (entry decoders m.code index) s')
        ((List.range count).map (entry decoders m.code index + ·))
        (recoded decoders m.code (proceed w m index s.locals (exec w instr s))) := by
  have hlength : (before decoders m.code index ++ [instr] ++ after decoders m.code index).length = 3 := by
    simp [hbefore, hafter]
  obtain ⟨hfirst, htimes⟩ := getElem?_times_after hinstr hbefore hafter
  obtain ⟨hlocals, hcases⟩ := h
  have hstep := Leads.single (w := w') (s := s') hfirst
  rw [hlocals] at hstep
  rcases hcases with ⟨exception, memory, hplain, hencoded⟩ | ⟨v, rest, memory, hv, hplain, hencoded⟩
  · refine ⟨1, by decide, by omega, ?_⟩
    have hproceed := proceed_recoded hc hw hinstr 0 (by omega) (.throw exception memory) nofun
      s.locals
    rw [hencoded] at hstep
    rw [hplain, ← hproceed]
    exact hstep
  · refine ⟨3, by decide, by omega, ?_⟩
    have hkind : (n.timesValue v).kind = inverse.kind := by
      rw [Number.kind_timesValue, hv, Number.kind_inverse hinverse]
    have hlast := leads_times (w := w') htimes hkind s.locals rest (memory.encode decoders)
    have hend : entry decoders m.code (index + 1) = entry decoders m.code index + 1 + 2 := by
      rw [entry_succ decoders hinstr, hbefore, hafter, length_times, List.length_nil]
    rw [Number.timesValue_inverse hinverse] at hlast
    rw [hencoded] at hstep
    rw [hplain, proceed, recoded, hend]
    exact hstep.trans hlast

theorem advances_read (hc : Cancels decoders m.code) (hw : World.Recodes decoders w w')
    {op : Opcode} {ref : MemberRef} {n inverse : Number}
    (hinstr : m.code[index]? = some (.field op ref)) (hop : op.isRead)
    (hfactor : factor? decoders ref = some n) (hinverse : n.inverse? = some inverse)
    (hbefore : before decoders m.code index = [])
    (hafter : after decoders m.code index = times inverse) (s : Store σ) :
    Advances decoders m w w' (.running index s) := by
  apply advances_of_step hinstr fun _ _ => not_chainedStore_succ hinstr (.inl hop)
  rcases exec_read hw hop hfactor s with hstuck | hproduct
  · exact .inl hstuck
  · right
    obtain ⟨count, hpos, hcount, hleads⟩ :=
      leads_inverse hc hw hinstr hinverse hbefore hafter hproduct
    exact follows_block hinstr count hcount (by rw [hbefore]; exact hpos) hleads

theorem advances_store (hc : Cancels decoders m.code) (hw : World.Recodes decoders w w')
    {op : Opcode} {ref : MemberRef} {n : Number}
    (hinstr : m.code[index]? = some (.field op ref))
    (hop : op = Opcode.putField ∨ op = Opcode.putStatic) (hfactor : factor? decoders ref = some n)
    (hbefore : before decoders m.code index = times n) (hafter : after decoders m.code index = [])
    (s : Store σ) : Advances decoders m w w' (.running index s) := by
  apply advances_of_step hinstr fun _ _ => not_chainedStore_succ hinstr (.inr hop)
  have hlength : (before decoders m.code index ++ [Instr.field op ref] ++
      after decoders m.code index).length = 3 := by
    simp [hbefore, hafter]
  obtain ⟨hlast, htimes⟩ := getElem?_times_before hinstr hbefore hafter
  rcases exec_store hw hop hfactor s with hstuck | ⟨v, objects, rest, hstack, hv, -, hcases⟩
  · exact .inl hstuck
  · right
    apply follows_block hinstr 3 (by omega) (by simp [hbefore])
    have hfirst := leads_times (w := w') htimes hv s.locals (objects ++ rest)
      (s.memory.encode decoders)
    have hstep := Leads.single (w := w')
      (s := ⟨s.locals, n.timesValue v :: (objects ++ rest), s.memory.encode decoders⟩) hlast
    have hexec : exec w' (.field op ref)
        ⟨s.locals, n.timesValue v :: (objects ++ rest), s.memory.encode decoders⟩ =
          (exec w (.field op ref) s).encode decoders := by
      rcases hcases with ⟨exception, memory, hplain, hencoded⟩ | ⟨memory, hplain, hencoded⟩
      · rw [hplain, hencoded rest]
        rfl
      · rw [hplain, hencoded rest]
        rfl
    have hproceed := proceed_recoded hc hw hinstr 2 (by omega) (exec w (.field op ref) s)
      (fun _ _ => hlength.symm) s.locals
    rw [hexec, hproceed] at hstep
    have hstart : recoded decoders m.code (.running index s) =
        .running (entry decoders m.code index)
          ⟨s.locals, v :: (objects ++ rest), s.memory.encode decoders⟩ := by
      rw [recoded, Store.encode, hstack]
    rw [hstart]
    exact hfirst.trans hstep

/-- Before a duplication the new method multiplies the value, so both copies are products. -/
theorem leads_duplicate {isStatic wide : Bool} {n : Number} {v : Value} {objects : List Value}
    (hinstr : m.code[index]? = some (.simple (chainedDup isStatic wide)))
    (hbefore : before decoders m.code index = times n) (hafter : after decoders m.code index = [])
    (hv : v.kind = n.kind) (hsize : (n.timesValue v).size = if wide then 2 else 1)
    (hobjects : objects.length = if isStatic then 0 else 1) (locals : UInt16 → Value) (rest : List Value)
    (memory : Memory σ) :
    Leads w' (cancelled decoders m) (.running (entry decoders m.code index) ⟨locals, v :: (objects ++ rest), memory⟩)
      ((List.range 3).map (entry decoders m.code index + ·))
      (.running (entry decoders m.code (index + 1))
        ⟨locals, n.timesValue v :: (objects ++ n.timesValue v :: rest), memory⟩) := by
  obtain ⟨hdup, htimes⟩ := getElem?_times_before hinstr hbefore hafter
  have hmul := leads_times (w := w') htimes hv locals (objects ++ rest) memory
  have hdouble := Leads.single (w := w') (s := ⟨locals, n.timesValue v :: (objects ++ rest), memory⟩) hdup
  rw [exec_chainedDup, shuffle_chained _ _ rest hsize hobjects, proceed] at hdouble
  have hend : entry decoders m.code (index + 1) = entry decoders m.code index + 2 + 1 := by
    rw [entry_succ decoders hinstr, hbefore, hafter, length_times, List.length_nil]
  rw [← hend] at hdouble
  exact hmul.trans hdouble

/-- In the old method a duplication is stuck, or the value and the objects of a store are on the stack.  A copy of the
value gets under the objects if the value has the right size. -/
theorem exec_duplicate {isStatic wide : Bool} {dup : Instr} (hdup : dup.opcode? = some (chainedDup isStatic wide))
    (s : Store σ) : exec w dup s = .stuck ∨
      dup = .simple (chainedDup isStatic wide) ∧ ∃ v objects rest left, s.stack = v :: (objects ++ rest) ∧
        objects.length = (if isStatic then 0 else 1) ∧ exec w dup s = .next { s with stack := v :: left } ∧
        (v.size = (if wide then 2 else 1) → left = objects ++ v :: rest) := by
  by_cases hstuck : exec w dup s = .stuck
  · exact .inl hstuck
  obtain rfl := (exec_opcode_chainedDup hdup s).resolve_left hstuck
  rw [exec_chainedDup] at hstuck ⊢
  cases hmoved : Frame.shuffle Value.size id (chainedEffect isStatic wide) s.stack with
  | none => exact absurd (by rw [hmoved]) hstuck
  | some moved =>
      obtain ⟨v, objects, rest, left, hstack, hobjects, rfl⟩ := shuffle_chained_eq_some hmoved
      refine .inr ⟨rfl, v, objects, rest, left, hstack, hobjects, rfl, fun hsize => ?_⟩
      rw [hstack, shuffle_chained isStatic wide rest hsize hobjects] at hmoved
      exact (List.cons.inj (Option.some.inj hmoved)).2.symm

/-- In the old method a duplication goes on to its store, and the run is not settled in between. -/
theorem leads_chained {dup : Instr} {s : Store σ} {stack : List Value} (hinstr : m.code[index]? = some dup)
    (hstore : m.code[index + 1]? = some instr) (hchained : ChainedStore decoders m.code (index + 1))
    (hexec : exec w dup s = .next { s with stack }) :
    Leads w m (.running index s) [index, index + 1]
        (proceed w m (index + 1) s.locals (exec w instr { s with stack })) ∧
      ∀ k, 0 < k → k < [index, index + 1].length → ¬ Settled decoders m.code (run w m k (.running index s)) := by
  have hfirst := Leads.single (w := w) (s := s) hinstr
  rw [hexec, proceed] at hfirst
  refine ⟨hfirst.trans (Leads.single hstore), fun k hk hlt => ?_⟩
  obtain rfl : k = 1 := by simp at hlt; omega
  rw [show run w m 1 (.running index s) = _ from hfirst.1]
  exact not_not_intro hchained

/-- The new method multiplies, duplicates the product, stores one copy and makes the other one plain. -/
theorem follows_chained (hc : Cancels decoders m.code) (hw : World.Recodes decoders w w') {isStatic wide : Bool}
    {n inverse : Number} {v : Value} {objects rest : List Value} {s : Store σ}
    (hinstr : m.code[index]? = some (.simple (chainedDup isStatic wide)))
    (hstore : m.code[index + 1]? = some instr) (hinverse : n.inverse? = some inverse)
    (hbefore : before decoders m.code index = times n) (hafter : after decoders m.code index = [])
    (hbefore' : before decoders m.code (index + 1) = []) (hafter' : after decoders m.code (index + 1) = times inverse)
    (hstack : s.stack = v :: (objects ++ rest)) (hv : v.kind = n.kind)
    (hsize : (n.timesValue v).size = if wide then 2 else 1) (hobjects : objects.length = if isStatic then 0 else 1)
    (hproduct : LeavesProduct decoders w w' n instr { s with stack := v :: (objects ++ v :: rest) }
      ⟨s.locals, n.timesValue v :: (objects ++ n.timesValue v :: rest), s.memory.encode decoders⟩) :
    Follows decoders m w' (.running index s) [index, index + 1]
      (proceed w m (index + 1) s.locals (exec w instr { s with stack := v :: (objects ++ v :: rest) })) := by
  have hdouble : Leads w' _ _ _ _ := leads_duplicate hinstr hbefore hafter hv hsize hobjects s.locals rest
    (s.memory.encode decoders)
  have hstart : recoded decoders m.code (.running index s) = .running (entry decoders m.code index)
      ⟨s.locals, v :: (objects ++ rest), s.memory.encode decoders⟩ := by
    rw [recoded, Store.encode, hstack]
  obtain ⟨count, hpos, hcount, hlast⟩ := leads_inverse hc hw hstore hinverse hbefore' hafter' hproduct
  refine ⟨(List.range 3).map (entry decoders m.code index + ·) ++
    (List.range count).map (entry decoders m.code (index + 1) + ·), ?_, ?_⟩
  · rw [hstart]
    exact hdouble.trans hlast
  · rw [List.filter_append, filter_block hinstr, filter_block hstore hcount (by rw [hbefore']; exact hpos)]
    · rfl
    · simp [hbefore, hafter]
    · simp [hbefore]

/-- A duplication and its store: both copies of the value are products in between. -/
theorem advances_duplicate (hc : Cancels decoders m.code) (hw : World.Recodes decoders w w')
    {op : Opcode} {ref : MemberRef} {n inverse : Number} {dup : Instr}
    (hinstr : m.code[index]? = some dup) (hstore : m.code[index + 1]? = some (.field op ref))
    (hop : op = Opcode.putField ∨ op = Opcode.putStatic) (hfactor : factor? decoders ref = some n)
    (hinverse : n.inverse? = some inverse)
    (hdup : dup.opcode? = some (chainedDup (op == Opcode.putStatic) (ref.descriptor == "J")))
    (hbefore : before decoders m.code index = times n) (hafter : after decoders m.code index = [])
    (hbefore' : before decoders m.code (index + 1) = [])
    (hafter' : after decoders m.code (index + 1) = times inverse)
    (s : Store σ) : Advances decoders m w w' (.running index s) := by
  have hchained : ChainedStore decoders m.code (index + 1) := by
    refine ⟨op, ref, n, hstore, hop, hfactor, by omega, ?_⟩
    rw [Nat.add_sub_cancel, hinstr]
    exact hdup
  rcases exec_duplicate (w := w) hdup s with hstuck | ⟨rfl, v, objects, rest, left, hstack, hobjects, hexec, hleft⟩
  · exact advances_of_step hinstr (fun s' hs' => by rw [hstuck] at hs'; cases hs') (.inl hstuck)
  obtain ⟨hleads, hmid⟩ := leads_chained hinstr hstore hchained hexec
  refine ⟨[index, index + 1], _, by simp, hleads, hmid, ?_⟩
  -- The store is stuck, or the value is of the kind of the field.
  rcases exec_store hw hop hfactor { s with stack := v :: left } with
    hstuck | ⟨v', objects', rest', hstack', hv, hobjects', hcases⟩
  · rw [hstuck]
    exact .inl rfl
  obtain ⟨rfl, rfl⟩ := List.cons.inj hstack'
  have hsize : ∀ u : Value, u.kind = n.kind → u.size = if ref.descriptor == "J" then 2 else 1 := by
    intro u hu
    rw [Value.size, hu, (factor?_kind hfactor).2]
    split <;> rfl
  obtain ⟨rfl, rfl⟩ := List.append_inj (hleft (hsize v hv)) (hobjects'.trans hobjects.symm)
  have hsettled := settled_proceed decoders w
    (exec w (.field op ref) { s with stack := v :: (objects' ++ v :: rest) }) s.locals
    fun _ _ => not_chainedStore_succ hstore (.inr hop)
  refine hsettled.imp_right fun hsettled => ⟨hsettled, ?_⟩
  have hproducts : (n.timesValue v).kind = n.kind := by rw [Number.kind_timesValue, hv]
  refine follows_chained hc hw hinstr hstore hinverse hbefore hafter hbefore' hafter' hstack hv
    (hsize _ hproducts) hobjects ⟨rfl, ?_⟩
  rcases hcases with ⟨exception, memory, hplain, hencoded⟩ | ⟨memory, hplain, hencoded⟩
  · exact .inl ⟨exception, memory, hplain, hencoded _⟩
  · exact .inr ⟨v, rest, memory, hv, hplain, hencoded _⟩

/-- The store after a duplication has its multiplication after it. -/
theorem wrapped_chained (hc : Cancels decoders m.code) {op : Opcode} {ref : MemberRef} {n : Number}
    (hinstr : m.code[index]? = some (.field op ref))
    (hop : op = Opcode.putField ∨ op = Opcode.putStatic) (hfactor : factor? decoders ref = some n)
    (hchained : ChainedStore decoders m.code index) :
    ∃ inverse, n.inverse? = some inverse ∧ before decoders m.code index = [] ∧
      after decoders m.code index = times inverse := by
  have hwrapped := wrapped hc hinstr
  generalize before decoders m.code index = pre at hwrapped
  generalize after decoders m.code index = post at hwrapped
  cases hwrapped with
  | plain hplain =>
      rcases hplain op ref rfl with hnone | ⟨-, hfield, hstatic⟩
      · rw [hfactor] at hnone
        cases hnone
      · exact absurd hop (not_or.2 ⟨hfield, hstatic⟩)
  | read hread => rcases hop with rfl | rfl <;> cases hread
  | store _ _ hnot => exact absurd hchained hnot
  | duplicate _ _ _ hdup => exact absurd (Option.some.inj hdup) (chainedDup_ne (.inr hop) _ _)
  | chained _ hfactor' hinverse =>
      obtain rfl := Option.some.inj (hfactor.symm.trans hfactor')
      exact ⟨_, hinverse, rfl, rfl⟩

/-- Every settled run goes on, and the new method with it. -/
theorem advances (hc : Cancels decoders m.code) (hw : World.Recodes decoders w w') {s : Store σ}
    (hsettled : Settled decoders m.code (.running index s)) :
    Advances decoders m w w' (.running index s) := by
  cases hinstr : m.code[index]? with
  | none =>
      refine ⟨[index], .stuck, by simp, Leads.off hinstr, ?_, .inl rfl⟩
      intro k hk hlt
      simp only [List.length_singleton] at hlt
      omega
  | some instr =>
      have hwrapped := wrapped hc hinstr
      generalize hbefore : before decoders m.code index = pre at hwrapped
      generalize hafter : after decoders m.code index = post at hwrapped
      cases hwrapped with
      | plain hplain hnext => exact advances_plain hc hw hinstr hplain hnext hbefore hafter s
      | read hop hfactor hinverse =>
          exact advances_read hc hw hinstr hop hfactor hinverse hbefore hafter s
      | store hop hfactor => exact advances_store hc hw hinstr hop hfactor hbefore hafter s
      | duplicate hnext hop hfactor hdup =>
          have hchained : ChainedStore decoders m.code (index + 1) := by
            refine ⟨_, _, _, hnext, hop, hfactor, by omega, ?_⟩
            rw [Nat.add_sub_cancel, hinstr]
            exact hdup
          obtain ⟨inverse, hinverse, hbefore', hafter'⟩ := wrapped_chained hc hnext hop hfactor hchained
          exact advances_duplicate hc hw hinstr hnext hop hfactor hinverse hdup hbefore hafter hbefore'
            hafter' s
      | chained _ _ _ hchained => exact absurd hchained hsettled

/-- The new method follows every run of the old one from one settled configuration to another. -/
theorem follows_run (hc : Cancels decoders m.code) (hw : World.Recodes decoders w w') (steps : Nat)
    {c : Config σ} (hstart : Settled decoders m.code c)
    (hend : Settled decoders m.code (run w m steps c)) :
    Follows decoders m w' c (path w m steps c) (run w m steps c) := by
  induction steps using Nat.strong_induction_on generalizing c with
  | h steps ih =>
      cases hpc : c.pc? with
      | none =>
          rw [run_of_ended hpc, path_of_ended hpc]
          exact ⟨[], Leads.refl _, rfl⟩
      | some pc =>
          obtain ⟨s, rfl⟩ : ∃ s, c = .running pc s := by
            cases c with
            | running pc' s => exact ⟨s, by rw [Option.some.inj hpc]⟩
            | _ => cases hpc
          obtain ⟨trail, c', hne, hleads, hmid, hcases⟩ := advances hc hw hstart
          have hpos : 0 < trail.length := List.length_pos_iff.2 hne
          rcases Nat.lt_or_ge steps trail.length with hlt | hge
          · rcases Nat.eq_zero_or_pos steps with rfl | hsteps
            · exact ⟨[], Leads.refl _, rfl⟩
            · exact absurd hend (hmid steps hsteps hlt)
          · obtain ⟨rest, rfl⟩ := Nat.exists_eq_add_of_le hge
            rw [run_add, hleads.1] at hend
            rw [run_add, path_add, hleads.1, hleads.2]
            rcases hcases with rfl | ⟨hsettled, hfollows⟩
            · rw [run_of_ended rfl] at hend
              exact hend.elim
            · exact hfollows.trans (ih rest (by omega) hsettled hend)

/-- The instructions stand in the new code in their old order. -/
theorem pairwise_places (decoders : Decoders) (code : List Instr) :
    (places decoders code).Pairwise (· < ·) := by
  rw [places, List.pairwise_map]
  apply List.pairwise_lt_range.imp_of_mem
  intro first last hfirst _ hlt
  have hinstr := List.getElem?_eq_getElem (List.mem_range.1 hfirst)
  have hmono : entry decoders code (first + 1) ≤ entry decoders code last := blockStart_mono hlt
  have hsucc := entry_succ decoders hinstr
  rw [place, place]
  omega

theorem getElem?_place (decoders : Decoders) (hinstr : m.code[index]? = some instr) :
    (cancelled decoders m).code[place decoders m.code index]? = some instr := by
  rw [place, getElem?_cancelled decoders hinstr _ (by simp)]
  simp

/-- Counter-multiplication is a simulation.  The instructions of a method stand in the new one in their old
order.  When both start with the same locals and the same stack, the new one in the encoded memory, then
whenever the old run is settled, the new one has executed the same instructions of the old code, in the same
order, and has the same locals, stack, result or exception, in the encoded memory. -/
theorem cancel_simulates {m' : MethodDecl} {count : Nat} (h : cancel decoders m = .ok (m', count))
    (hnarrow : ∀ index, ¬ WidenedRead decoders m.code index) (hw : World.Recodes decoders w w')
    {c : Config σ} (hstart : Settled decoders m.code c) :
    entry decoders m.code 0 = 0 ∧ (places decoders m.code).Pairwise (· < ·) ∧
      (∀ index < m.code.length, m'.code[place decoders m.code index]? = m.code[index]?) ∧
      ∀ steps, Settled decoders m.code (run w m steps c) →
        ∃ steps', run w' m' steps' (recoded decoders m.code c) =
            recoded decoders m.code (run w m steps c) ∧
          (path w' m' steps' (recoded decoders m.code c)).filter (· ∈ places decoders m.code) =
            (path w m steps c).map (place decoders m.code) := by
  obtain ⟨hc, rfl⟩ := cancel_eq_ok h hnarrow
  refine ⟨blockStart_zero _, pairwise_places decoders m.code, ?_, ?_⟩
  · intro index hindex
    rw [List.getElem?_eq_getElem hindex]
    exact getElem?_place decoders (List.getElem?_eq_getElem hindex)
  · intro steps hend
    obtain ⟨new, hleads, hfilter⟩ := follows_run hc hw steps hstart hend
    refine ⟨new.length, hleads.1, ?_⟩
    rw [← hfilter]
    exact congrArg _ hleads.2

/-- A method that returns one field and keeps its value in another one. -/
def keep : MethodDecl :=
  { name := "keep", descriptor := "()I", code :=
    [.label ⟨0⟩, .field Opcode.getStatic ⟨"A", "x", "I"⟩, .simple Opcode.dup,
      .field Opcode.putStatic ⟨"A", "y", "I"⟩, .simple Opcode.ireturn] }

/-- A world in which nothing happens. -/
def still : World Unit where
  act _ _ _ := none
  nullAccess memory := (.ref none, memory)
  catches _ _ _ := false

theorem still_recodes (decoders : Decoders) : World.Recodes decoders still still :=
  ⟨fun _ _ _ => rfl, fun _ => rfl, fun _ _ _ => rfl⟩

/-- The memory in which every field holds 7. -/
def sevens : Memory Unit :=
  ⟨fun _ => .int 7, ()⟩

theorem cancel_keep : cancel [("A.x", .int 3), ("A.y", .int 5)] keep = .ok ({ keep with code :=
    [.label ⟨0⟩, .field Opcode.getStatic ⟨"A", "x", "I"⟩, .ldc (.int (-1431655765)),
      .simple Opcode.imul, .ldc (.int 5), .simple Opcode.imul, .simple Opcode.dup,
      .field Opcode.putStatic ⟨"A", "y", "I"⟩, .ldc (.int (-858993459)), .simple Opcode.imul,
      .simple Opcode.ireturn] }, 2) := by
  have hfound : (List.range keep.code.length).filterMapM
      (insertions [("A.x", .int 3), ("A.y", .int 5)] keep.code.toArray) =
        .ok [[⟨2, times (.int (-1431655765))⟩], [⟨2, times (.int 5)⟩, ⟨4, times (.int (-858993459))⟩]] := by
    decide +kernel
  rw [cancel_of_insertions hfound (by decide)]
  decide

theorem keep_returns : run still keep 5 (.running 0 ⟨fun _ => .int 0, [], sevens⟩) =
    .returned (some (.int 7)) (sevens.set ⟨none, "A", "y", "I"⟩ (.int 7)) := by
  have hint : Descriptor.fieldType "I" = .ok ⟨.int, 0⟩ := by decide +kernel
  have hkind : ∀ name, MemberRef.kind? ⟨"A", name, "I"⟩ = some (Value.int 7).kind := by
    intro name
    rw [MemberRef.kind?, hint]
    rfl
  have hread : step still keep (.running 1 ⟨fun _ => .int 0, [], sevens⟩) =
      .running 2 ⟨fun _ => .int 0, [.int 7], sevens⟩ := by
    show proceed still keep 1 (fun _ => .int 0) (exec still (.field Opcode.getStatic ⟨"A", "x", "I"⟩)
      ⟨fun _ => .int 0, [], sevens⟩) = _
    rw [exec_getStatic (hkind "x")]
    rfl
  have hstore : step still keep (.running 3 ⟨fun _ => .int 0, [.int 7, .int 7], sevens⟩) =
      .running 4 ⟨fun _ => .int 0, [.int 7], sevens.set ⟨none, "A", "y", "I"⟩ (.int 7)⟩ := by
    show proceed still keep 3 (fun _ => .int 0) (exec still (.field Opcode.putStatic ⟨"A", "y", "I"⟩)
      ⟨fun _ => .int 0, [.int 7, .int 7], sevens⟩) = _
    rw [exec_putStatic (hkind "y")]
    rfl
  show step still keep (step still keep (step still keep (step still keep
    (.running 1 ⟨fun _ => .int 0, [], sevens⟩)))) = _
  rw [hread]
  show step still keep (step still keep (.running 3 ⟨fun _ => .int 0, [.int 7, .int 7], sevens⟩)) = _
  rw [hstore]
  rfl

/-- Two multiplications stand before the duplication, one for the read and one for the store, and the method
still returns 7. -/
theorem keep_simulates : ∃ m' steps', cancel [("A.x", .int 3), ("A.y", .int 5)] keep = .ok (m', 2) ∧
    run still m' steps' (.running 0
        ⟨fun _ => .int 0, [], sevens.encode [("A.x", .int 3), ("A.y", .int 5)]⟩) =
      .returned (some (.int 7)) ((sevens.set ⟨none, "A", "y", "I"⟩ (.int 7)).encode
        [("A.x", .int 3), ("A.y", .int 5)]) := by
  have hnarrow : ∀ index, ¬ WidenedRead [("A.x", .int 3), ("A.y", .int 5)] keep.code index := by
    rintro index ⟨op, ref, n, -, -, -, -, hnext⟩
    obtain ⟨instr, hinstr, hop⟩ := Option.bind_eq_some_iff.1 hnext
    have hnone : ∀ instr ∈ keep.code, instr.opcode? ≠ some Opcode.i2l := by decide
    exact hnone instr (List.mem_of_getElem? hinstr) hop
  have hstart : Settled [("A.x", .int 3), ("A.y", .int 5)] keep.code
      (.running 0 (σ := Unit) ⟨fun _ => .int 0, [], sevens⟩) := by
    rintro ⟨op, ref, n, -, -, -, hpos, -⟩
    exact absurd hpos (Nat.lt_irrefl 0)
  obtain ⟨hzero, -, -, hsteps⟩ :=
    cancel_simulates cancel_keep hnarrow (still_recodes _) hstart
  rw [recoded, hzero] at hsteps
  obtain ⟨steps', hrun, -⟩ := hsteps 5 (by rw [keep_returns]; trivial)
  rw [keep_returns] at hrun
  exact ⟨_, steps', cancel_keep, hrun⟩

end Unscramble.Multiplier.Cancel
