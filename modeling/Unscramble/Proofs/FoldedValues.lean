/-
Code that evaluates an expression in postfix order, and what is left of it when the multiplications are folded.
A constant is loaded, sums and products are made from the two values on top of the stack, and the code of a
variable may do anything as long as it leaves its value there.  Such code pushes the value of the expression,
and so does the folded code.
-/
import Unscramble.Proofs.FoldSimulation
import Unscramble.Proofs.ProductTrees

namespace Unscramble

@[simp] theorem Number.kind_mul (factor value : Number) : (factor.mul value).kind = factor.kind := by
  cases factor <;> rfl

namespace Machine

variable {σ : Type} {w : World σ} {m : MethodDecl} {start middle stop index waiting : Nat}

/-- The store with more values on the stack, the top of the stack coming first. -/
def Store.pushAll (vs : List Value) (s : Store σ) : Store σ :=
  { s with stack := vs ++ s.stack }

section Ranges

variable {start' stop' : Nat} {c c' c'' : Config σ}

/-- A run whose instructions all lie in a range of the code. -/
inductive Within (w : World σ) (m : MethodDecl) (start stop : Nat) : Config σ → Config σ → Prop
  | refl (c : Config σ) : Within w m start stop c c
  | step {pc : Nat} {s : Store σ} {c : Config σ} (hstart : start ≤ pc) (hstop : pc < stop)
      (h : Within w m start stop (Machine.step w m (.running pc s)) c) :
      Within w m start stop (.running pc s) c

theorem Within.trans (h : Within w m start stop c c') (h' : Within w m start stop c' c'') :
    Within w m start stop c c'' := by
  induction h with
  | refl c => exact h'
  | step hstart hstop _ ih => exact .step hstart hstop (ih h')

theorem Within.mono (h : Within w m start stop c c') (hstart : start' ≤ start) (hstop : stop ≤ stop') :
    Within w m start' stop' c c' := by
  induction h with
  | refl c => exact .refl c
  | step hfirst hlast _ ih => exact .step (Nat.le_trans hstart hfirst) (Nat.lt_of_lt_of_le hlast hstop) ih

theorem Within.eq_of_ended (h : Within w m start stop c c') (hended : c.pc? = none) : c' = c := by
  cases h with
  | refl => rfl
  | step => cases hended

/-- One instruction that ends normally. -/
theorem Within.single {instr : Instr} {s s' : Store σ} (hinstr : m.code[index]? = some instr)
    (hexec : exec w instr s = .next s') :
    Within w m index (index + 1) (.running index s) (.running (index + 1) s') := by
  apply Within.step (Nat.le_refl _) (Nat.lt_succ_self _)
  rw [Machine.step, hinstr]
  simp only [hexec, proceed]
  exact .refl _

end Ranges

/-- Whatever values, up to a number of them, wait on the stack: the code in a range pushes a value on top of
them, and does the same with the rest of the store. -/
def Pushes (w : World σ) (m : MethodDecl) (waiting start stop : Nat) (s : Store σ) (v : Value)
    (s' : Store σ) : Prop :=
  ∀ operands : List Value, operands.length ≤ waiting →
    Within w m start stop (.running start (s.pushAll operands)) (.running stop (s'.pushAll (v :: operands)))

namespace Pushes

variable {s s₁ s₂ s' : Store σ} {a b v : Value} {op : Opcode}

theorem mono {waiting' : Nat} (h : Pushes w m waiting start stop s v s') (hle : waiting' ≤ waiting) :
    Pushes w m waiting' start stop s v s' :=
  fun operands hlength => h operands (Nat.le_trans hlength hle)

theorem start_le (h : Pushes w m waiting start stop s v s') : start ≤ stop := by
  have hwithin := h [] (Nat.zero_le _)
  generalize hc : Config.running start _ = c at hwithin
  generalize hc' : Config.running stop _ = c' at hwithin
  cases hwithin with
  | refl =>
      rw [← hc'] at hc
      injection hc with heq
      exact Nat.le_of_eq heq
  | step hstart hstop =>
      injection hc with heq
      omega

/-- An instruction that loads a value. -/
theorem single {instr : Instr} (hinstr : m.code[index]? = some instr)
    (hload : ∀ s : Store σ, exec w instr s = .next (s.pushAll [v])) (s : Store σ) :
    Pushes w m waiting index (index + 1) s v s :=
  fun operands _ => .single hinstr (hload (s.pushAll operands))

/-- A sum or a product of what two pieces of code push. -/
theorem ring (hleft : Pushes w m waiting start middle s a s₁) (hright : Pushes w m (waiting + 1) middle index s₁ b s₂)
    (hinstr : m.code[index]? = some (.simple op)) (hop : Expr.isSum (.simple op) ∨ Expr.isProduct (.simple op))
    (hv : op.compute [b, a] = some v) : Pushes w m waiting start (index + 1) s v s₂ := by
  intro operands hlength
  have hmiddle := hleft.start_le
  have hindex := hright.start_le
  have hfirst := (hleft operands hlength).mono (Nat.le_refl start) (show middle ≤ index + 1 by omega)
  have hsecond := (hright (a :: operands) (Nat.succ_le_succ hlength)).mono hmiddle (Nat.le_succ index)
  have hexec : exec w (.simple op) (s₂.pushAll (b :: a :: operands)) = .next (s₂.pushAll (v :: operands)) := by
    rw [Store.pushAll, List.cons_append, List.cons_append, exec_ring hop, hv]
    rfl
  have hlast := (Within.single hinstr hexec).mono (show start ≤ index by omega) (Nat.le_refl _)
  exact (hfirst.trans hsecond).trans hlast

end Pushes

/-- A label loads nothing. -/
theorem ne_label_of_load {instr : Instr} {s : Store σ} {v : Value}
    (hload : exec w instr s = .next (s.pushAll [v])) (label : Label) : instr ≠ .label label := by
  rintro rfl
  have hsame : exec w (.label label) s = .next s := rfl
  rw [hsame] at hload
  injection hload with hstore
  have hlength := congrArg (fun s => s.stack.length) hstore
  simp [Store.pushAll] at hlength

/-- The code in a range evaluates an expression in postfix order while no more than so many operands wait below, and
changes the rest of the store on the way.  Each node but the variables has one instruction there, which is its
maker; the code of a variable may be any code that pushes a value, with branches, calls and handlers. -/
inductive Evaluates (w : World σ) (m : MethodDecl) :
    Expr → (waiting start stop : Nat) → Store σ → Value → Store σ → Prop
  | var {o : Origin} {waiting start stop : Nat} {s s' : Store σ} {v : Value}
      (h : Pushes w m waiting start stop s v s') : Evaluates w m (.var o) waiting start stop s v s'
  | const {o : Origin} {n : Number} {waiting index : Nat} {s : Store σ} {instr : Instr}
      (hmaker : o.maker? = some index) (hinstr : m.code[index]? = some instr)
      (hload : ∀ s : Store σ, exec w instr s = .next (s.pushAll [.ofNumber n])) :
      Evaluates w m (.const o n) waiting index (index + 1) s (.ofNumber n) s
  | add {o : Origin} {left right : Expr} {waiting start middle index : Nat} {s s₁ s₂ : Store σ}
      {a b v : Value} {op : Opcode} (hleft : Evaluates w m left waiting start middle s a s₁)
      (hright : Evaluates w m right (waiting + 1) middle index s₁ b s₂) (hmaker : o.maker? = some index)
      (hinstr : m.code[index]? = some (.simple op)) (hop : Expr.isSum (.simple op))
      (hv : op.compute [b, a] = some v) :
      Evaluates w m (.add o left right) waiting start (index + 1) s v s₂
  | mul {o : Origin} {left right : Expr} {waiting start middle index : Nat} {s s₁ s₂ : Store σ}
      {a b v : Value} {op : Opcode} (hleft : Evaluates w m left waiting start middle s a s₁)
      (hright : Evaluates w m right (waiting + 1) middle index s₁ b s₂) (hmaker : o.maker? = some index)
      (hinstr : m.code[index]? = some (.simple op)) (hop : Expr.isProduct (.simple op))
      (hv : op.compute [b, a] = some v) :
      Evaluates w m (.mul o left right) waiting start (index + 1) s v s₂

namespace Evaluates

variable {e : Expr} {s s' : Store σ} {v : Value}

/-- The code pushes the value of the expression. -/
theorem pushes (h : Evaluates w m e waiting start stop s v s') : Pushes w m waiting start stop s v s' := by
  induction h with
  | var h => exact h
  | const hmaker hinstr hload => exact .single hinstr hload _
  | add _ _ hmaker hinstr hop hv ihleft ihright => exact ihleft.ring ihright hinstr (.inl hop) hv
  | mul _ _ hmaker hinstr hop hv ihleft ihright => exact ihleft.ring ihright hinstr (.inr hop) hv

/-- The maker of a node lies in the range, and is no label. -/
theorem exists_maker (h : Evaluates w m e waiting start stop s v s') {node : Expr} (hnode : node ∈ e.operations) :
    ∃ index, node.maker? = some index ∧ (start ≤ index ∧ index < stop) ∧
      ∃ instr, m.code[index]? = some instr ∧ ∀ label, instr ≠ .label label := by
  induction h with
  | var h => cases hnode
  | @const o n waiting index s instr hmaker hinstr hload =>
      obtain rfl := List.mem_singleton.1 hnode
      exact ⟨index, hmaker, ⟨Nat.le_refl _, Nat.lt_succ_self _⟩, instr, hinstr, ne_label_of_load (hload s)⟩
  | @add o left right waiting start middle index _ _ _ _ _ _ op hleft hright hmaker hinstr _ _ ihleft ihright
  | @mul o left right waiting start middle index _ _ _ _ _ _ op hleft hright hmaker hinstr _ _ ihleft ihright =>
      have hmiddle := hleft.pushes.start_le
      have hindex := hright.pushes.start_le
      rw [Expr.operations, List.mem_cons, List.mem_append] at hnode
      rcases hnode with rfl | hnode | hnode
      · exact ⟨index, hmaker, ⟨by omega, by omega⟩, _, hinstr, by simp⟩
      · obtain ⟨place, hplace, hrange, hmade⟩ := ihleft hnode
        exact ⟨place, hplace, ⟨by omega, by omega⟩, hmade⟩
      · obtain ⟨place, hplace, hrange, hmade⟩ := ihright hnode
        exact ⟨place, hplace, ⟨by omega, by omega⟩, hmade⟩

theorem stop_le (h : Evaluates w m e waiting start stop s v s') (hvar : e.isVar = false) :
    stop ≤ m.code.length := by
  cases h with
  | var => cases hvar
  | const _ hinstr => exact (List.getElem?_eq_some_iff.1 hinstr).1
  | add _ _ _ hinstr => exact (List.getElem?_eq_some_iff.1 hinstr).1
  | mul _ _ _ hinstr => exact (List.getElem?_eq_some_iff.1 hinstr).1

end Evaluates

end Machine

namespace Multiplier.Fold

open Machine

variable {σ : Type} {w : World σ} {m : MethodDecl} {known : List (Nat × Part)} {start stop index place waiting : Nat}

section Blocks

variable {instr instr' : Instr} {part : Part}

theorem blockStart_of_removed (hlookup : known.lookup index = some part) (hremoved : part.change? = some none)
    (hinstr : m.code[index]? = some instr) :
    blockStart (blocks known m.code) (index + 1) = blockStart (blocks known m.code) index := by
  rw [blockStart_succ_block known hinstr, block, hlookup, Option.bind_some, hremoved]
  rfl

/-- Where an instruction becomes a single one. -/
theorem at_blockStart (hinstr : m.code[index]? = some instr) (hblock : block known (instr, index) = [instr']) :
    (folded known m).code[blockStart (blocks known m.code) index]? = some instr' ∧
      blockStart (blocks known m.code) (index + 1) = blockStart (blocks known m.code) index + 1 := by
  constructor
  · have hat := getElem?_folded known hinstr 0 (by rw [hblock]; exact Nat.zero_lt_one)
    rwa [hblock] at hat
  · rw [blockStart_succ_block known hinstr, hblock]
    rfl

theorem block_of_unchanged (hlookup : known.lookup index = some part) (hchange : part.change? = none) :
    block known (instr, index) = [instr] := by
  rw [block, hlookup, Option.bind_some, hchange]

end Blocks

/-- No instruction has two parts, and no label has one. -/
structure WellPlaced (known : List (Nat × Part)) (code : List Instr) : Prop where
  distinct : (known.map Prod.fst).Nodup
  label : ∀ index label, code[index]? = some (.label label) → known.lookup index = none

/-- A range without parts is executed as before, in its new place. -/
theorem within_folded {c c' : Config σ} (hplaced : WellPlaced known m.code)
    (hnone : ∀ index, start ≤ index → index < stop → known.lookup index = none) (h : Within w m start stop c c')
    (hrunning : c'.pc? ≠ none) :
    Within w (folded known m) (blockStart (blocks known m.code) start) (blockStart (blocks known m.code) stop)
      (move (blockStart (blocks known m.code)) c) (move (blockStart (blocks known m.code)) c') := by
  induction h with
  | refl c => exact .refl _
  | @step pc s c hstart hstop h ih =>
      cases hinstr : m.code[pc]? with
      | none =>
          -- off the code the run would be stuck, but it goes on
          have hstuck : Machine.step w m (.running pc s) = .stuck := by rw [Machine.step, hinstr]
          rw [hstuck] at h
          rw [h.eq_of_ended rfl] at hrunning
          exact absurd rfl hrunning
      | some instr =>
          have hblock : (blocks known m.code)[pc]? = some [instr] := by
            rw [getElem?_blocks known hinstr, block, hnone pc hstart hstop]
            rfl
          have hlt : blockStart (blocks known m.code) pc < blockStart (blocks known m.code) stop :=
            Nat.lt_of_not_le fun hle => Nat.not_le_of_lt hstop ((blockStart_le_iff hblock Nat.zero_lt_one stop).1 hle)
          have hstep := step_flatten (w := w) (keepsLabels_of_lookup hplaced.label) hinstr hblock s
          apply Within.step (blockStart_mono hstart) hlt
          rw [folded, hstep]
          exact ih hrunning

section Agreement

variable {start' stop' : Nat} {added added' : List (Nat × Part)}

/-- In a range, the parts that are known are the given ones. -/
def Agrees (known added : List (Nat × Part)) (start stop : Nat) : Prop :=
  ∀ index part, start ≤ index → index < stop → ((index, part) ∈ known ↔ (index, part) ∈ added)

theorem Agrees.restrict (h : Agrees known added start stop) (hstart : start ≤ start') (hstop : stop' ≤ stop)
    (hsubset : added' ⊆ added) (hothers : ∀ p ∈ added, start' ≤ p.1 → p.1 < stop' → p ∈ added') :
    Agrees known added' start' stop' := by
  intro index part hfirst hlast
  rw [h index part (Nat.le_trans hstart hfirst) (Nat.lt_of_lt_of_le hlast hstop)]
  exact ⟨fun hmem => hothers _ hmem hfirst hlast, fun hmem => hsubset hmem⟩

theorem Agrees.lookup {part : Part} (h : Agrees known added start stop) (hdistinct : (known.map Prod.fst).Nodup)
    (hmem : (index, part) ∈ added) (hrange : start ≤ index ∧ index < stop) : known.lookup index = some part :=
  (lookup_eq_some_iff_mem hdistinct).2 ((h index part hrange.1 hrange.2).2 hmem)

theorem Agrees.lookup_eq_none (h : Agrees known added start stop) (hdistinct : (known.map Prod.fst).Nodup)
    (hnone : ∀ part, (index, part) ∉ added) (hrange : start ≤ index ∧ index < stop) : known.lookup index = none := by
  rw [Option.eq_none_iff_forall_ne_some]
  intro part hlookup
  exact hnone part ((h index part hrange.1 hrange.2).1 ((lookup_eq_some_iff_mem hdistinct).1 hlookup))

end Agreement

section Values

variable {e left right other : Expr} {o c : Origin} {s s' s₁ s₂ : Store σ} {a b u v : Value} {value factor : Number}
  {middle start' stop' : Nat} {op : Opcode} {instr : Instr}

/-- In its new place, the folded code of a range pushes a value. -/
def FoldedPushes (w : World σ) (m : MethodDecl) (known : List (Nat × Part)) (waiting start stop : Nat)
    (s : Store σ) (v : Value) (s' : Store σ) : Prop :=
  Pushes w (folded known m) waiting (blockStart (blocks known m.code) start)
    (blockStart (blocks known m.code) stop) s v s'

/-- A constant that takes the factor. -/
theorem FoldedPushes.constant (hlookup : known.lookup index = some (.constant value factor))
    (hkind : value.kind = factor.kind) (hinstr : m.code[index]? = some instr) (s : Store σ) :
    FoldedPushes w m known waiting index (index + 1) s (factor.timesValue (.ofNumber value)) s := by
  have hblock : block known (instr, index) = [.push (factor.mul value)] := by
    rw [block, hlookup]
    rfl
  obtain ⟨hat, hnext⟩ := at_blockStart hinstr hblock
  rw [FoldedPushes, hnext, ← Number.ofNumber_mul hkind]
  exact .single hat (exec_push _) s

/-- A sum or a product that stays. -/
theorem FoldedPushes.ring {part : Part} (hleft : FoldedPushes w m known waiting start middle s a s₁)
    (hright : FoldedPushes w m known (waiting + 1) middle index s₁ b s₂) (hlookup : known.lookup index = some part)
    (hchange : part.change? = none) (hinstr : m.code[index]? = some (.simple op))
    (hop : Expr.isSum (.simple op) ∨ Expr.isProduct (.simple op)) (hv : op.compute [b, a] = some v) :
    FoldedPushes w m known waiting start (index + 1) s v s₂ := by
  obtain ⟨hat, hnext⟩ := at_blockStart hinstr (block_of_unchanged hlookup hchange)
  rw [FoldedPushes, hnext]
  exact Pushes.ring hleft hright hat hop hv

/-- An instruction that is removed makes no difference after the code of a range. -/
theorem FoldedPushes.removed {part : Part} (h : FoldedPushes w m known waiting start index s v s')
    (hlookup : known.lookup index = some part) (hremoved : part.change? = some none)
    (hinstr : m.code[index]? = some instr) : FoldedPushes w m known waiting start (index + 1) s v s' := by
  rwa [FoldedPushes, blockStart_of_removed hlookup hremoved hinstr]

/-- The parts of an expression belong to instructions of its code, none of which is a label. -/
theorem range_of_part (h : Evaluates w m e waiting start stop s v s') {kind : Kind} (hbuilt : e.isBuilt kind)
    {part : Part} (hpart : (index, part) ∈ parts e factor) :
    (start ≤ index ∧ index < stop) ∧ ∃ instr, m.code[index]? = some instr ∧ ∀ label, instr ≠ .label label := by
  have hvar : e.isVar = false := by
    cases e with
    | var o => cases hpart
    | _ => rfl
  have hsingle : ∀ node ∈ e.operations, node.maker?.isSome := by
    intro node hnode
    obtain ⟨maker, hmaker, -⟩ := h.exists_maker hnode
    rw [hmaker]
    rfl
  have hindex : some index ∈ indexes (parts e factor) := List.mem_map_of_mem (List.mem_map_of_mem hpart)
  obtain ⟨node, hnode, hmaker⟩ := List.mem_map.1 ((indexes_parts hbuilt hvar hsingle factor).mem_iff.1 hindex)
  obtain ⟨maker, hmaker', hrange, hinstr⟩ := h.exists_maker hnode
  obtain rfl := Option.some.inj (hmaker'.symm.trans hmaker)
  exact ⟨hrange, hinstr⟩

/-- The parts of an expression are well placed in code that evaluates it. -/
theorem wellPlaced_parts {kind : Kind} (h : Evaluates w m e waiting start stop s v s') (hbuilt : e.isBuilt kind)
    (hvar : e.isVar = false) (hmakers : e.HasOwnMakers) : WellPlaced (parts e factor) m.code := by
  have hdistinct := nodup_parts hbuilt hvar hmakers factor
  refine ⟨hdistinct, ?_⟩
  intro index label hlabel
  rw [Option.eq_none_iff_forall_ne_some]
  intro part hlookup
  obtain ⟨-, instr, hinstr, hne⟩ := range_of_part h hbuilt ((lookup_eq_some_iff_mem hdistinct).1 hlookup)
  exact hne label (Option.some.inj (hinstr.symm.trans hlabel))

/-- The code of a variable stays what it is. -/
theorem foldedPushes_variable (h : Evaluates w m other waiting start stop s u s') (hvar : other.isVar)
    {productPart constantPart : Part} (hplaced : WellPlaced known m.code)
    (hagrees : Agrees known [(index, productPart), (place, constantPart)] start' stop') (hstart : start' ≤ start)
    (hstop : stop ≤ stop') (houtside : (index < start ∨ stop ≤ index) ∧ (place < start ∨ stop ≤ place)) :
    FoldedPushes w m known waiting start stop s u s' := by
  cases h with
  | var h =>
      intro operands hlength
      refine within_folded hplaced ?_ (h operands hlength) (Option.some_ne_none _)
      intro inner hfirst hlast
      apply hagrees.lookup_eq_none hplaced.distinct ?_ ⟨by omega, by omega⟩
      intro part hpart
      rw [List.mem_cons, List.mem_singleton, Prod.mk.injEq, Prod.mk.injEq] at hpart
      omega
  | _ => cases hvar

/-- The code of the other side of a product pushes the multiplied product once the constant and the multiplication
are gone; if both stay, it pushes what it did. -/
theorem foldedPushes_other (h : Evaluates w m other waiting start stop s u s') (hplaced : WellPlaced known m.code)
    (ho : o.maker? = some index) (hc : c.maker? = some place)
    (hagrees : Agrees known (partsOfProduct o c value factor other) start' stop') (hstart : start' ≤ start)
    (hstop : stop ≤ stop') (hindex : start' ≤ index ∧ index < stop') (hplace : start' ≤ place ∧ place < stop')
    (houtside : (index < start ∨ stop ≤ index) ∧ (place < start ∨ stop ≤ place))
    (hvalue : (factor.mul value).timesValue u = factor.timesValue v)
    (ih : other.isVar = false → Agrees known (parts other (factor.mul value)) start stop →
      FoldedPushes w m known waiting start stop s ((factor.mul value).timesValue u) s') :
    (known.lookup index = some (.merged value factor) ∧ known.lookup place = some (.dropped value) ∧
      FoldedPushes w m known waiting start stop s (factor.timesValue v) s') ∨
    (known.lookup index = some (.product factor) ∧ known.lookup place = some (.constant value factor) ∧
      FoldedPushes w m known waiting start stop s u s') := by
  unfold partsOfProduct parts.ofVar at hagrees
  simp only [partOf_of_maker ho, partOf_of_maker hc, List.singleton_append] at hagrees
  -- a variable times 1, a variable times another constant, and anything else
  split_ifs at hagrees with hvar hone
  · have hmerged := hagrees.lookup hplaced.distinct (List.mem_cons_self ..) hindex
    have hdropped := hagrees.lookup hplaced.distinct (List.mem_cons_of_mem _ (List.mem_cons_self ..)) hplace
    refine .inl ⟨hmerged, hdropped, ?_⟩
    rw [← hvalue, Number.timesValue_of_isOne hone]
    exact foldedPushes_variable h hvar hplaced hagrees hstart hstop houtside
  · have hproduct := hagrees.lookup hplaced.distinct (List.mem_cons_self ..) hindex
    have hconstant := hagrees.lookup hplaced.distinct (List.mem_cons_of_mem _ (List.mem_cons_self ..)) hplace
    exact .inr ⟨hproduct, hconstant, foldedPushes_variable h hvar hplaced hagrees hstart hstop houtside⟩
  · have hmerged := hagrees.lookup hplaced.distinct (List.mem_cons_self ..) hindex
    have hdropped := hagrees.lookup hplaced.distinct (List.mem_cons_of_mem _ (List.mem_cons_self ..)) hplace
    refine .inl ⟨hmerged, hdropped, ?_⟩
    rw [← hvalue]
    apply ih (eq_false_of_ne_true hvar)
    apply hagrees.restrict hstart hstop
    · exact fun p hp => List.mem_cons_of_mem _ (List.mem_cons_of_mem _ hp)
    · rintro ⟨inner, part⟩ hp hfirst hlast
      rw [List.mem_cons, List.mem_cons, Prod.mk.injEq, Prod.mk.injEq] at hp
      rcases hp with ⟨rfl, -⟩ | ⟨rfl, -⟩ | hp
      · omega
      · omega
      · exact hp

/-- A product whose left side is its constant. -/
theorem foldedPushes_mul_left (h : Evaluates w m other (waiting + 1) (place + 1) index s u s')
    (hplaced : WellPlaced known m.code) (ho : o.maker? = some index) (hc : c.maker? = some place)
    (hagrees : Agrees known (partsOfProduct o c value factor other) place (index + 1))
    (hkind : value.kind = factor.kind) (hload : m.code[place]? = some instr)
    (hinstr : m.code[index]? = some (.simple op)) (hop : Expr.isProduct (.simple op))
    (hv : op.compute [u, .ofNumber value] = some v)
    (ih : other.isVar = false → Agrees known (parts other (factor.mul value)) (place + 1) index →
      FoldedPushes w m known (waiting + 1) (place + 1) index s ((factor.mul value).timesValue u) s') :
    FoldedPushes w m known waiting place (index + 1) s (factor.timesValue v) s' := by
  have hindex := h.pushes.start_le
  have hvalue := Opcode.product_constant hop hkind (.inr hv)
  rcases foldedPushes_other h hplaced ho hc hagrees (Nat.le_succ _) (Nat.le_succ _) ⟨by omega, by omega⟩
    ⟨by omega, by omega⟩ ⟨by omega, by omega⟩ hvalue ih with
    ⟨hproduct, hconstant, hpushes⟩ | ⟨hproduct, hconstant, hpushes⟩
  · have hother : FoldedPushes w m known waiting place index s (factor.timesValue v) s' := by
      rw [FoldedPushes, ← blockStart_of_removed hconstant rfl hload]
      exact Pushes.mono hpushes (Nat.le_succ _)
    exact hother.removed hproduct rfl hinstr
  · have hfirst : FoldedPushes w m known waiting place (place + 1) s _ s := .constant hconstant hkind hload s
    exact hfirst.ring hpushes hproduct rfl hinstr (.inr hop) (Opcode.compute_product hop hv factor).2

/-- A product whose right side is its constant. -/
theorem foldedPushes_mul_right (h : Evaluates w m other waiting start place s u s')
    (hplaced : WellPlaced known m.code) (ho : o.maker? = some (place + 1)) (hc : c.maker? = some place)
    (hagrees : Agrees known (partsOfProduct o c value factor other) start (place + 1 + 1))
    (hkind : value.kind = factor.kind) (hload : m.code[place]? = some instr)
    (hinstr : m.code[place + 1]? = some (.simple op)) (hop : Expr.isProduct (.simple op))
    (hv : op.compute [.ofNumber value, u] = some v)
    (ih : other.isVar = false → Agrees known (parts other (factor.mul value)) start place →
      FoldedPushes w m known waiting start place s ((factor.mul value).timesValue u) s') :
    FoldedPushes w m known waiting start (place + 1 + 1) s (factor.timesValue v) s' := by
  have hplace := h.pushes.start_le
  have hvalue := Opcode.product_constant hop hkind (.inl hv)
  rcases foldedPushes_other h hplaced ho hc hagrees (Nat.le_refl _) (by omega) ⟨by omega, by omega⟩
    ⟨by omega, by omega⟩ ⟨by omega, by omega⟩ hvalue ih with
    ⟨hproduct, hconstant, hpushes⟩ | ⟨hproduct, hconstant, hpushes⟩
  · exact (hpushes.removed hconstant rfl hload).removed hproduct rfl hinstr
  · have hsecond : FoldedPushes w m known (waiting + 1) place (place + 1) s' _ s' := .constant hconstant hkind hload s'
    exact hpushes.ring hsecond hproduct rfl hinstr (.inr hop) (Opcode.compute_product hop hv factor).1

/-- The parts of the sides of a sum are those of their ranges. -/
theorem agrees_sides {kind : Kind} {part : Part} (hleft : Evaluates w m left waiting start middle s a s₁)
    (hright : Evaluates w m right (waiting + 1) middle index s₁ b s₂) (hleftBuilt : left.isBuilt kind)
    (hrightBuilt : right.isBuilt kind)
    (hagrees : Agrees known ((index, part) :: (parts left factor ++ parts right factor)) start (index + 1)) :
    Agrees known (parts left factor) start middle ∧ Agrees known (parts right factor) middle index := by
  have hmiddle := hleft.pushes.start_le
  have hindex := hright.pushes.start_le
  constructor
  · apply hagrees.restrict (Nat.le_refl _) (by omega)
    · exact fun p hp => List.mem_cons_of_mem _ (List.mem_append_left _ hp)
    · rintro ⟨inner, part⟩ hp hfirst hlast
      rw [List.mem_cons, List.mem_append, Prod.mk.injEq] at hp
      rcases hp with ⟨rfl, -⟩ | hp | hp
      · omega
      · exact hp
      · have hrange := (range_of_part hright hrightBuilt hp).1
        omega
  · apply hagrees.restrict hmiddle (Nat.le_succ _)
    · exact fun p hp => List.mem_cons_of_mem _ (List.mem_append_right _ hp)
    · rintro ⟨inner, part⟩ hp hfirst hlast
      rw [List.mem_cons, List.mem_append, Prod.mk.injEq] at hp
      rcases hp with ⟨rfl, -⟩ | hp | hp
      · omega
      · have hrange := (range_of_part hleft hleftBuilt hp).1
        omega
      · exact hp

/-- Folded code pushes the value of the expression times the factor. -/
theorem foldedPushes (h : Evaluates w m e waiting start stop s v s') (hplaced : WellPlaced known m.code)
    (hbuilt : e.isBuilt factor.kind) (hvar : e.isVar = false) (hagrees : Agrees known (parts e factor) start stop) :
    FoldedPushes w m known waiting start stop s (factor.timesValue v) s' := by
  -- The factor varies: both sides of a sum take it, and that of a product takes up the constant on its way down.
  induction h generalizing factor with
  | var => cases hvar
  | @const o n waiting index s instr hmaker hinstr hload =>
      have hlookup : known.lookup index = some (.constant n factor) := by
        apply hagrees.lookup hplaced.distinct ?_ ⟨Nat.le_refl _, Nat.lt_succ_self _⟩
        rw [parts, partOf_of_maker hmaker]
        exact List.mem_singleton_self _
      exact .constant hlookup (Expr.isBuilt_const.1 hbuilt) hinstr s
  | @add o left right waiting start middle index s s₁ s₂ a b v op hleft hright hmaker hinstr hop hv ihleft ihright =>
      obtain ⟨hsides, hleftBuilt, hrightBuilt⟩ := Expr.isBuilt_add.1 hbuilt
      rw [parts, partOf_of_maker hmaker, List.singleton_append] at hagrees
      have hrange : start ≤ index ∧ index < index + 1 :=
        ⟨Nat.le_trans hleft.pushes.start_le hright.pushes.start_le, Nat.lt_succ_self _⟩
      have hlookup := hagrees.lookup hplaced.distinct (List.mem_cons_self ..) hrange
      obtain ⟨hagreesLeft, hagreesRight⟩ := agrees_sides hleft hright hleftBuilt hrightBuilt hagrees
      have hfirst := ihleft hleftBuilt (Expr.isVar_of_isConstOrMul hsides.1) hagreesLeft
      have hsecond := ihright hrightBuilt (Expr.isVar_of_isConstOrMul hsides.2) hagreesRight
      exact hfirst.ring hsecond hlookup rfl hinstr (.inl hop) (Opcode.compute_sum hop hv factor)
  | @mul o left right waiting start middle index s s₁ s₂ a b v op hleft hright hmaker hinstr hop hv ihleft ihright =>
      obtain ⟨hconst, hleftBuilt, hrightBuilt⟩ := Expr.isBuilt_mul.1 hbuilt
      by_cases hleftConst : left.isConst
      · obtain ⟨c, value, rfl⟩ := Expr.exists_const hleftConst
        have hkind := Expr.isBuilt_const.1 hleftBuilt
        rw [parts_mul_left] at hagrees
        cases hleft with
        | const hplace hload =>
            exact foldedPushes_mul_left hright hplaced hmaker hplace hagrees hkind hload hinstr hop hv
              (ihright (by rwa [Number.kind_mul]))
      · obtain ⟨c, value, rfl⟩ := Expr.exists_const (hconst.resolve_left hleftConst)
        have hkind := Expr.isBuilt_const.1 hrightBuilt
        rw [parts_mul_right (eq_false_of_ne_true hleftConst)] at hagrees
        cases hright with
        | const hplace hload =>
            exact foldedPushes_mul_right hleft hplaced hmaker hplace hagrees hkind hload hinstr hop hv
              (ihleft (by rwa [Number.kind_mul]))

end Values

section Splitting

variable {code : List Instr}

/-- Code without parts stays as it is. -/
theorem flatten_blocks_of_none
    (hnone : ∀ index, start ≤ index → index < start + code.length → known.lookup index = none) :
    ((code.zipIdx start).map (block known)).flatten = code := by
  induction code generalizing start with
  | nil => rfl
  | cons instr rest ih =>
      rw [List.length_cons] at hnone
      have hblock : block known (instr, start) = [instr] := by
        rw [block, hnone start (Nat.le_refl _) (by omega)]
        rfl
      rw [List.zipIdx_cons, List.map_cons, List.flatten_cons, hblock, List.singleton_append]
      rw [ih fun index hfirst hlast => hnone index (by omega) (by omega)]

theorem blockStart_append (first last : List (List Instr)) :
    blockStart (first ++ last) first.length = first.flatten.length := by
  rw [blockStart, List.take_left]

/-- When all parts are in a range, the code before and after the range stays as it is. -/
theorem flatten_blocks (hknown : ∀ index part, known.lookup index = some part → start ≤ index ∧ index < stop)
    (hle : start ≤ stop) (hstop : stop ≤ code.length) :
    ∃ inner, (blocks known code).flatten = code.take start ++ inner ++ code.drop stop ∧
      blockStart (blocks known code) start = start ∧ blockStart (blocks known code) stop = start + inner.length := by
  have hnone : ∀ index, index < start ∨ stop ≤ index → known.lookup index = none := by
    intro index hindex
    rw [Option.eq_none_iff_forall_ne_some]
    intro part hlookup
    have hrange := hknown index part hlookup
    omega
  have hlength : (code.take start).length = start := List.length_take_of_le (Nat.le_trans hle hstop)
  have hcode : code = code.take start ++ ((code.drop start).take (stop - start) ++ code.drop stop) := by
    have hdrop : code.drop stop = (code.drop start).drop (stop - start) := by
      rw [List.drop_drop, Nat.add_sub_of_le hle]
    rw [hdrop, List.take_append_drop, List.take_append_drop]
  have hinner : ((code.drop start).take (stop - start)).length = stop - start := by
    rw [List.length_take_of_le]
    rw [List.length_drop]
    exact Nat.sub_le_sub_right hstop start
  have hbefore : ((code.take start).zipIdx.map (block known)).flatten = code.take start :=
    flatten_blocks_of_none fun index _ hindex => hnone index (.inl (by omega))
  have hafter : (((code.drop stop).zipIdx stop).map (block known)).flatten = code.drop stop :=
    flatten_blocks_of_none fun index hindex _ => hnone index (.inr hindex)
  have hblocks : blocks known code = (code.take start).zipIdx.map (block known) ++
      ((((code.drop start).take (stop - start)).zipIdx start).map (block known) ++
        ((code.drop stop).zipIdx stop).map (block known)) := by
    rw [blocks]
    nth_rewrite 1 [hcode]
    rw [List.zipIdx_append, List.zipIdx_append, List.map_append, List.map_append, hlength, hinner,
      Nat.zero_add, Nat.add_sub_of_le hle]
  refine ⟨((((code.drop start).take (stop - start)).zipIdx start).map (block known)).flatten, ?_, ?_, ?_⟩
  · rw [hblocks, List.flatten_append, List.flatten_append, hbefore, hafter, List.append_assoc]
  · have hstart := blockStart_append ((code.take start).zipIdx.map (block known))
      ((((code.drop start).take (stop - start)).zipIdx start).map (block known) ++
        ((code.drop stop).zipIdx stop).map (block known))
    rwa [hbefore, hlength, List.length_map, List.length_zipIdx, hlength, ← hblocks] at hstart
  · have hend := blockStart_append ((code.take start).zipIdx.map (block known) ++
      (((code.drop start).take (stop - start)).zipIdx start).map (block known))
        (((code.drop stop).zipIdx stop).map (block known))
    rwa [List.append_assoc, ← hblocks, List.flatten_append, hbefore, List.length_append, List.length_append, hlength,
      List.length_map, List.length_map, List.length_zipIdx, List.length_zipIdx, hlength, hinner,
      Nat.add_sub_of_le hle] at hend

end Splitting

section Main

/-- A product can be folded when it is built as the symbolic domain does it and every node has an instruction of
its own.  Wherever code evaluates the product, whatever its variables are, the folded code leaves the same value
on the stack and everything else as it does, and the code around it stays. -/
theorem scale_preserves_value {tree : Expr} {one : Number} (hone : one.isOne) (hmul : tree.isMul)
    (hbuilt : tree.isBuilt one.kind) (hmakers : tree.HasOwnMakers) :
    ∃ edits, scale tree one ∅ = .ok edits ∧
      ∀ {σ : Type} (w : World σ) (m : MethodDecl) (start stop : Nat) (s : Store σ) (v : Value) (s' : Store σ),
        Evaluates w m tree 0 start stop s v s' →
          Within w m start stop (.running start s) (.running stop (s'.pushAll [v])) ∧
          ∃ inner, applyEdits edits m.code = m.code.take start ++ inner ++ m.code.drop stop ∧
            Within w { m with code := applyEdits edits m.code } start (start + inner.length)
              (.running start s) (.running (start + inner.length) (s'.pushAll [v])) := by
  have hvar : tree.isVar = false := by
    cases tree with
    | var o => cases hmul
    | _ => rfl
  have hfree : Free (tree.operations.map Expr.maker?) ∅ := fun index _ => Std.HashMap.getElem?_empty
  obtain ⟨edits, hedits⟩ := scale_isOk hbuilt hvar hmakers hfree one
  refine ⟨edits, hedits, ?_⟩
  intro σ w m start stop s v s' heval
  refine ⟨heval.pushes [] (Nat.le_refl _), ?_⟩
  have hplaced : WellPlaced (parts tree one) m.code := wellPlaced_parts heval hbuilt hvar hmakers
  have hcode := applyEdits_eq hplaced.distinct (scale_adds hedits) m.code
  have hrange : ∀ index part, (parts tree one).lookup index = some part → start ≤ index ∧ index < stop :=
    fun index part hlookup => (range_of_part heval hbuilt ((lookup_eq_some_iff_mem hplaced.distinct).1 hlookup)).1
  obtain ⟨inner, hinner, hstart, hstop⟩ := flatten_blocks hrange heval.pushes.start_le (heval.stop_le hvar)
  refine ⟨inner, hcode.trans hinner, ?_⟩
  have hpushes := foldedPushes heval hplaced hbuilt hvar fun index part _ _ => Iff.rfl
  have hwithin := hpushes [] (Nat.le_refl _)
  rw [hstart, hstop, Number.timesValue_of_isOne hone, folded, ← hcode] at hwithin
  exact hwithin

/-- Five times the difference of four and three times a parameter; another one says which parameter. -/
def selected : MethodDecl :=
  { name := "selected", descriptor := "(III)I", access := 8, maxLocals := 3, code :=
    [.ldc (.int 5), .ldc (.int 4), .var Opcode.iload 0, .jump Opcode.ifeq ⟨0⟩, .var Opcode.iload 1,
      .jump Opcode.goto ⟨1⟩, .label ⟨0⟩, .var Opcode.iload 2, .label ⟨1⟩, .ldc (.int 3), .simple Opcode.imul,
      .simple Opcode.isub, .simple Opcode.imul, .simple Opcode.ireturn] }

def selectedTree : Expr :=
  .mul ⟨1, [12]⟩ (.const ⟨1, [0]⟩ (.int 5)) (.add ⟨1, [11]⟩ (.const ⟨1, [1]⟩ (.int 4))
    (.mul ⟨1, [10]⟩ (.var ⟨1, [4, 7]⟩) (.const ⟨1, [9]⟩ (.int 3))))

/-- A store of `selected` in which the parameter is 7. -/
def selectedStore (memory : Memory Unit) : Store Unit :=
  ⟨fun slot => if slot = 0 then .int 0 else .int 7, [], memory⟩

theorem selected_evaluates (w : World Unit) (memory : Memory Unit) :
    Evaluates w selected selectedTree 0 0 13 (selectedStore memory) (.int (-85)) (selectedStore memory) := by
  have hload : ∀ (n : Int32) (s : Store Unit), exec w (.ldc (.int n)) s = .next (s.pushAll [.int n]) :=
    fun n s => rfl
  have hparameter : Pushes w selected 2 2 9 (selectedStore memory) (.int 7) (selectedStore memory) := by
    intro operands _
    exact .step (by decide) (by decide) (.step (by decide) (by decide) (.step (by decide) (by decide)
      (.step (by decide) (by decide) (.step (by decide) (by decide) (.refl _)))))
  have hthree : Evaluates w selected (.mul ⟨1, [10]⟩ (.var ⟨1, [4, 7]⟩) (.const ⟨1, [9]⟩ (.int 3))) 2 2 11
      (selectedStore memory) (.int 21) (selectedStore memory) :=
    .mul (.var hparameter) (.const rfl rfl (hload 3)) rfl rfl rfl rfl
  have hdifference : Evaluates w selected (.add ⟨1, [11]⟩ (.const ⟨1, [1]⟩ (.int 4))
      (.mul ⟨1, [10]⟩ (.var ⟨1, [4, 7]⟩) (.const ⟨1, [9]⟩ (.int 3)))) 1 1 12
      (selectedStore memory) (.int (-17)) (selectedStore memory) :=
    .add (.const rfl rfl (hload 4)) hthree rfl rfl rfl rfl
  exact .mul (.const rfl rfl (hload 5)) hdifference rfl rfl rfl rfl

/-- The folded code leaves -85 as well. -/
theorem scale_preserves_selected : ∃ edits, scale selectedTree (.int 1) ∅ = .ok edits ∧
    ∀ (w : World Unit) (memory : Memory Unit),
      ∃ inner, applyEdits edits selected.code = inner ++ [.simple Opcode.ireturn] ∧
        Within w { selected with code := applyEdits edits selected.code } 0 inner.length
          (.running 0 (selectedStore memory))
          (.running inner.length ((selectedStore memory).pushAll [.int (-85)])) := by
  obtain ⟨edits, hedits, hvalue⟩ := @scale_preserves_value selectedTree (.int 1) rfl rfl (by decide)
    ⟨by decide, by decide⟩
  refine ⟨edits, hedits, ?_⟩
  intro w memory
  obtain ⟨-, inner, hcode, hwithin⟩ := hvalue w selected 0 13 _ _ _ (selected_evaluates w memory)
  rw [Nat.zero_add] at hwithin
  exact ⟨inner, hcode, hwithin⟩

end Main

end Multiplier.Fold

end Unscramble
