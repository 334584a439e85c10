/-
Folding the multiplications of a faithful method does not change what it does.  The folded method executes
the blocks that the instructions became.  An instruction without a part does the same in both methods, and one
with a part leaves what its share says; so both stacks stay in step until the method ends.
-/
import Unscramble.Proofs.FoldStacks

namespace Unscramble.Multiplier.Fold

open Machine

variable {σ : Type} {w : World σ} {known : List (Nat × Part)} {index : Nat} {instr : Instr}

/-- What the instructions of a block do to a store when all of them end normally. -/
def Performs (w : World σ) : List Instr → Store σ → Store σ → Prop
  | [], s, s' => s' = s
  | instr :: rest, s, s' => ∃ middle, exec w instr s = .next middle ∧ Performs w rest middle s'

theorem performs_single {s s' : Store σ} (h : exec w instr s = .next s') :
    Performs w [instr] s s' :=
  ⟨s', h, rfl⟩

section Parts

variable {s : Store σ} {effect : Effect} {frame after : Frame Expr} {part : Part} {e : Expr} {v : Value}
  {op : Opcode} {n : Number}

theorem effect_of_constant (h : Expr.constant? instr = some n) :
    Effect.ofInstr instr = .ok (.push n.kind) := by
  rcases constant_cases h with rfl | ⟨rfl, rfl⟩ | ⟨rfl, rfl⟩ | ⟨rfl, rfl⟩ | ⟨rfl, rfl⟩
  · cases n <;> rfl
  all_goals rfl

/-- The result of a sum or a product is of the kind that the instruction announces. -/
theorem effect_of_ring (hop : Expr.isSum (.simple op) ∨ Expr.isProduct (.simple op)) :
    ∃ kind, Effect.ofInstr (.simple op) = .ok (.binary (some kind)) ∧
      ∀ a b v, op.compute [b, a] = some v → v.kind = kind := by
  rcases Opcode.ring_cases hop with hint | hlong
  · refine ⟨.int, by rcases hint with rfl | rfl | rfl <;> rfl, ?_⟩
    intro a b v hv
    obtain ⟨f, x, y, -, -, -, rfl⟩ := Opcode.compute_eq_some_int hint hv
    rfl
  · refine ⟨.long, by rcases hlong with rfl | rfl | rfl <;> rfl, ?_⟩
    intro a b v hv
    obtain ⟨f, x, y, -, -, -, rfl⟩ := Opcode.compute_eq_some_long hlong hv
    rfl

/-- The value that an instruction with a part made. -/
theorem partOf?_of_maker (hlookup : known.lookup index = some part) (hmaker : e.origin.makers = [index]) :
    partOf? known e = some part := by
  rw [partOf?, Expr.maker?, Origin.maker?, hmaker]
  exact hlookup

/-- What is left of the value that an instruction with a part made. -/
theorem leftover_cons_part (hpart : partOf? known e = some part) (v : Value) (es : List Expr) (vs : List Value) :
    leftover known (e :: es) (v :: vs) = Share.left (some part.share) v ++ leftover known es vs := by
  rw [leftover, shareOf, hpart]
  rfl

/-- An instruction ends normally, with values that fit, and its block does the same to what is left. -/
def Matches (w : World σ) (known : List (Nat × Part)) (index : Nat) (instr : Instr) (frame after : Frame Expr)
    (s : Store σ) : Prop :=
  ∃ s', exec w instr s = .next s' ∧ List.Forall₂ (Fits known) after.stack s'.stack ∧
    Performs w (block known (instr, index)) (reduced known frame.stack s) (reduced known after.stack s')

/-- The frame after an instruction that pushes a constant. -/
theorem execute_constant (hconstant : Expr.constant? instr = some n) (heffect : Effect.ofInstr instr = .ok effect)
    (h : frame.execute Domain.exprs index instr effect = .ok after) :
    ∃ e, after.stack = e :: frame.stack ∧ e.origin = ⟨n.kind.size, [index]⟩ := by
  rw [effect_of_constant hconstant] at heffect
  obtain rfl := Except.ok.inj heffect
  obtain ⟨made, hafter, hmade⟩ := execute_operands rfl h
  obtain ⟨e, rfl, horigin⟩ := Option.map_eq_some_iff.1 hmade
  exact ⟨e, hafter, horigin⟩

theorem matches_constant (hlookup : known.lookup index = some part) (hvalue : part.constant? = some n)
    (hconstant : Expr.constant? instr = some n) (heffect : Effect.ofInstr instr = .ok effect)
    (h : frame.execute Domain.exprs index instr effect = .ok after)
    (hfits : List.Forall₂ (Fits known) frame.stack s.stack)
    (hblock : Performs w (block known (instr, index)) (reduced known frame.stack s)
      { s with stack := Share.left (some part.share) (Value.ofNumber n) ++ leftover known frame.stack s.stack }) :
    Matches w known index instr frame after s := by
  obtain ⟨e, hafter, horigin⟩ := execute_constant hconstant heffect h
  have hpart := partOf?_of_maker hlookup (congrArg Origin.makers horigin)
  refine ⟨_, exec_constant hconstant s, ?_, ?_⟩
  · rw [hafter]
    refine .cons ⟨?_, ?_⟩ hfits
    · rw [horigin, Value.size, Number.kind_ofNumber]
    · intro _ other hother
      rw [hpart, Option.bind_some, hvalue] at hother
      rw [Option.some.inj hother]
  · rw [← leftover_cons_part hpart] at hblock
    rwa [hafter]

/-- The frame after a sum or a product. -/
theorem execute_ring {right left : Expr} {es : List Expr} {kind : Kind} (hstack : frame.stack = right :: left :: es)
    (h : frame.execute Domain.exprs index instr (.binary (some kind)) = .ok after) :
    ∃ e, after.stack = e :: es ∧ e.origin = ⟨kind.size, [index]⟩ := by
  obtain ⟨made, hafter, hmade⟩ := execute_operands rfl h
  obtain ⟨e, rfl, horigin⟩ := Option.map_eq_some_iff.1 hmade
  rw [hstack] at hafter
  exact ⟨e, hafter, horigin⟩

/-- A sum or a product is stuck unless it has two operands on which it is defined.  Then it does what the share of its
part says, if its block does. -/
theorem stuck_or_matches (hlookup : known.lookup index = some part) (hvalue : part.constant? = none)
    (hop : Expr.isSum (.simple op) ∨ Expr.isProduct (.simple op)) (hfollows : part.follows known frame.stack)
    (heffect : Effect.ofInstr (.simple op) = .ok effect)
    (h : frame.execute Domain.exprs index (.simple op) effect = .ok after)
    (hfits : List.Forall₂ (Fits known) frame.stack s.stack)
    (hblock : ∀ (right left : Expr) (es : List Expr) (b a v : Value) (rest : List Value),
      part.follows known (right :: left :: es) → Fits known right b → Fits known left a → op.compute [b, a] = some v →
        Performs w (block known (.simple op, index))
          ⟨s.locals, Share.left (shareOf known right) b ++ (Share.left (shareOf known left) a ++ rest), s.memory⟩
          ⟨s.locals, Share.left (some part.share) v ++ rest, s.memory⟩) :
    exec w (.simple op) s = .stuck ∨ Matches w known index (.simple op) frame after s := by
  obtain ⟨right, left, es, hstack⟩ := part.exists_operands hvalue hfollows
  obtain ⟨locals, stack, memory⟩ := s
  rw [hstack] at hfits hfollows
  rcases hfits with _ | @⟨_, b, _, _, hb, _ | @⟨_, a, _, vs, ha, hvs⟩⟩
  cases hv : op.compute [b, a] with
  | none => exact .inl (by rw [exec_ring hop, hv])
  | some v =>
      right
      obtain ⟨kind, hkind, hresult⟩ := effect_of_ring hop
      rw [hkind] at heffect
      obtain rfl := Except.ok.inj heffect
      obtain ⟨e, hafter, horigin⟩ := execute_ring hstack h
      have hpart := partOf?_of_maker hlookup (congrArg Origin.makers horigin)
      refine ⟨⟨locals, v :: vs, memory⟩, by rw [exec_ring hop, hv], ?_, ?_⟩
      · rw [hafter]
        refine .cons ⟨?_, ?_⟩ hvs
        · rw [horigin, Value.size, hresult a b v hv]
        · intro _ other hother
          rw [hpart, Option.bind_some, hvalue] at hother
          cases hother
      · have hperforms := hblock right left es b a v (leftover known es vs) hfollows hb ha hv
        rw [← leftover_cons_part hpart] at hperforms
        rwa [hstack, hafter]

/-- The folded method executes an instruction of which only the operands change. -/
theorem performs_ring {locals : UInt16 → Value} {memory : Memory σ} {a b v : Value} {rest : List Value}
    (hop : Expr.isSum (.simple op) ∨ Expr.isProduct (.simple op)) (hlookup : known.lookup index = some part)
    (hchange : part.change? = none) (hv : op.compute [b, a] = some v) :
    Performs w (block known (.simple op, index)) ⟨locals, b :: a :: rest, memory⟩
      ⟨locals, v :: rest, memory⟩ := by
  rw [block, hlookup, Option.bind_some, hchange]
  apply performs_single
  rw [exec_ring hop, hv]

theorem matches_sum {factor : Number} (hlookup : known.lookup index = some (.sum factor))
    (hop : Expr.isSum (.simple op)) (hfollows : (Part.sum factor).follows known frame.stack)
    (heffect : Effect.ofInstr (.simple op) = .ok effect)
    (h : frame.execute Domain.exprs index (.simple op) effect = .ok after)
    (hfits : List.Forall₂ (Fits known) frame.stack s.stack) :
    exec w (.simple op) s = .stuck ∨ Matches w known index (.simple op) frame after s := by
  refine stuck_or_matches hlookup rfl (.inl hop) hfollows heffect h hfits ?_
  intro right left es b a v rest hfollows _ _ hv
  rw [Part.follows, Bool.and_eq_true] at hfollows
  rw [left_of_carries hfollows.1, left_of_carries hfollows.2]
  exact performs_ring (.inl hop) hlookup rfl (Opcode.compute_sum hop hv factor)

theorem matches_product {factor : Number} (hlookup : known.lookup index = some (.product factor))
    (hop : Expr.isProduct (.simple op)) (hfollows : (Part.product factor).follows known frame.stack)
    (heffect : Effect.ofInstr (.simple op) = .ok effect)
    (h : frame.execute Domain.exprs index (.simple op) effect = .ok after)
    (hfits : List.Forall₂ (Fits known) frame.stack s.stack) :
    exec w (.simple op) s = .stuck ∨ Matches w known index (.simple op) frame after s := by
  refine stuck_or_matches hlookup rfl (.inr hop) hfollows heffect h hfits ?_
  intro right left es b a v rest hfollows _ _ hv
  rw [Part.follows, Bool.or_eq_true, Bool.and_eq_true, Bool.and_eq_true] at hfollows
  obtain ⟨hright, hleft⟩ := Opcode.compute_product hop hv factor
  rcases hfollows with ⟨hcarries, hplain⟩ | ⟨hplain, hcarries⟩
  · rw [left_of_carries hcarries, left_of_isPlain hplain]
    exact performs_ring (.inr hop) hlookup rfl hleft
  · rw [left_of_carries hcarries, left_of_isPlain hplain]
    exact performs_ring (.inr hop) hlookup rfl hright

theorem matches_merged {value factor : Number} (hlookup : known.lookup index = some (.merged value factor))
    (hop : Expr.isProduct (.simple op)) (hkind : value.kind = factor.kind)
    (hfollows : (Part.merged value factor).follows known frame.stack)
    (heffect : Effect.ofInstr (.simple op) = .ok effect)
    (h : frame.execute Domain.exprs index (.simple op) effect = .ok after)
    (hfits : List.Forall₂ (Fits known) frame.stack s.stack) :
    exec w (.simple op) s = .stuck ∨ Matches w known index (.simple op) frame after s := by
  refine stuck_or_matches hlookup rfl (.inr hop) hfollows heffect h hfits ?_
  intro right left es b a v rest hfollows hb ha hv
  rw [Part.follows, Bool.or_eq_true, Bool.and_eq_true, Bool.and_eq_true] at hfollows
  -- The block is empty: what is left of the other operand already is what is left of the product.
  rw [block, hlookup]
  rcases hfollows with ⟨hdropped, hcarries⟩ | ⟨hdropped, hcarries⟩
  · rw [left_of_carries hcarries, left_of_isDropped hdropped]
    rw [ha.eq_of_isDropped hdropped] at hv
    rw [Opcode.product_constant hop hkind (.inr hv)]
    rfl
  · rw [left_of_carries hcarries, left_of_isDropped hdropped]
    rw [hb.eq_of_isDropped hdropped] at hv
    rw [Opcode.product_constant hop hkind (.inl hv)]
    rfl

/-- An instruction with a part does what its share says. -/
theorem matches_part (hlookup : known.lookup index = some part) (hmade : part.isMadeBy instr)
    (hfollows : part.follows known frame.stack) (heffect : Effect.ofInstr instr = .ok effect)
    (h : frame.execute Domain.exprs index instr effect = .ok after)
    (hfits : List.Forall₂ (Fits known) frame.stack s.stack) :
    exec w instr s = .stuck ∨ Matches w known index instr frame after s := by
  cases part with
  | constant value factor =>
      rw [Part.isMadeBy, Bool.and_eq_true, beq_iff_eq, beq_iff_eq] at hmade
      obtain ⟨hconstant, hkind⟩ := hmade
      refine .inr (matches_constant hlookup rfl hconstant heffect h hfits ?_)
      rw [block, hlookup]
      apply performs_single
      rw [exec_push, Number.ofNumber_mul hkind]
      rfl
  | dropped value =>
      rw [Part.isMadeBy, beq_iff_eq] at hmade
      refine .inr (matches_constant hlookup rfl hmade heffect h hfits ?_)
      rw [block, hlookup]
      rfl
  | sum factor =>
      obtain ⟨op, rfl⟩ := Expr.exists_simple (.inl hmade)
      exact matches_sum hlookup hmade hfollows heffect h hfits
  | product factor =>
      obtain ⟨op, rfl⟩ := Expr.exists_simple (.inr hmade)
      exact matches_product hlookup hmade hfollows heffect h hfits
  | merged value factor =>
      rw [Part.isMadeBy, Bool.and_eq_true, beq_iff_eq] at hmade
      obtain ⟨op, rfl⟩ := Expr.exists_simple (.inr hmade.1)
      exact matches_merged hlookup hmade.1 hmade.2 hfollows heffect h hfits

end Parts

section Layout

theorem getElem?_blocks (known : List (Nat × Part)) {code : List Instr} (h : code[index]? = some instr) :
    (blocks known code)[index]? = some (block known (instr, index)) := by
  simp [blocks, h]

theorem push_ne_label (n : Number) (label : Label) : Instr.push n ≠ .label label := by
  cases n with
  | int value =>
      simp only [Instr.push, Instr.pushInt]
      repeat' split
      all_goals simp
  | long value =>
      simp only [Instr.push, Instr.pushLong]
      repeat' split
      all_goals simp

theorem label_notMem_block (hinstr : ∀ label, instr ≠ .label label) (label : Label) :
    .label label ∉ block known (instr, index) := by
  intro hlabel
  unfold block at hlabel
  split at hlabel
  · next change hchange =>
      obtain ⟨part, -, hpart⟩ := Option.bind_eq_some_iff.1 hchange
      cases part with
      | constant value factor =>
          obtain rfl := Option.some.inj hpart
          exact push_ne_label _ _ (List.mem_singleton.1 hlabel).symm
      | dropped | merged =>
          obtain rfl := Option.some.inj hpart
          cases hlabel
      | sum | product => cases hpart
  · exact hinstr label (List.mem_singleton.1 hlabel).symm

/-- When no label has a part, no block but that of a label has a label in it. -/
theorem keepsLabels_of_lookup {code : List Instr}
    (hnone : ∀ index label, code[index]? = some (.label label) → known.lookup index = none) :
    KeepsLabels code (blocks known code) := by
  apply keepsLabels_of_getElem? (by simp [blocks])
  intro index instr after hinstr hblock
  rw [getElem?_blocks known hinstr] at hblock
  obtain rfl := Option.some.inj hblock
  by_cases hlabel : ∃ label, instr = .label label
  · obtain ⟨label, rfl⟩ := hlabel
    refine .inl ⟨label, rfl, ?_⟩
    rw [block, hnone index label hinstr]
    rfl
  · have hlabel : ∀ label, instr ≠ .label label := fun label heq => hlabel ⟨label, heq⟩
    exact .inr ⟨hlabel, label_notMem_block hlabel⟩

/-- A label has no part, and no block but its own has a label in it. -/
theorem keepsLabels_blocks {code : List Instr}
    (hmade : ∀ index part instr, known.lookup index = some part → code[index]? = some instr →
      part.isMadeBy instr) : KeepsLabels code (blocks known code) := by
  apply keepsLabels_of_lookup
  intro index label hlabel
  rw [Option.eq_none_iff_forall_ne_some]
  intro part hlookup
  have hpart := hmade index part _ hlookup hlabel
  cases part <;> cases hpart

/-- The folded method, before it is known that folding succeeds. -/
def folded (known : List (Nat × Part)) (m : MethodDecl) : MethodDecl :=
  { m with code := (blocks known m.code).flatten }

theorem getElem?_folded (known : List (Nat × Part)) {m : MethodDecl} (hinstr : m.code[index]? = some instr)
    (offset : Nat) (hoffset : offset < (block known (instr, index)).length) :
    (folded known m).code[blockStart (blocks known m.code) index + offset]? =
      (block known (instr, index))[offset]? :=
  getElem?_flatten_blockStart (getElem?_blocks known hinstr) hoffset

theorem blockStart_succ_block (known : List (Nat × Part)) {m : MethodDecl}
    (hinstr : m.code[index]? = some instr) :
    blockStart (blocks known m.code) (index + 1) =
      blockStart (blocks known m.code) index + (block known (instr, index)).length :=
  blockStart_succ (getElem?_blocks known hinstr)

/-- A block whose instructions end normally is executed from its start to its end. -/
theorem run_performs {m : MethodDecl} {block : List Instr} {start : Nat} {s s' : Store σ}
    (hat : ∀ offset < block.length, m.code[start + offset]? = block[offset]?) (h : Performs w block s s') :
    run w m block.length (.running start s) = .running (start + block.length) s' := by
  induction block generalizing start s with
  | nil => rw [h]; rfl
  | cons instr rest ih =>
      obtain ⟨middle, hexec, hrest⟩ := h
      have hfirst : m.code[start]? = some instr := hat 0 (by simp)
      have hstep : step w m (.running start s) = .running (start + 1) middle := by
        rw [step, hfirst]
        simp only [hexec, proceed]
      have hat' : ∀ offset < rest.length, m.code[start + 1 + offset]? = rest[offset]? := by
        intro offset hoffset
        rw [Nat.add_assoc, Nat.add_comm 1 offset, hat (offset + 1) (by simpa using hoffset)]
        rfl
      calc run w m (rest.length + 1) (.running start s)
          = run w m rest.length (step w m (.running start s)) := rfl
        _ = .running (start + 1 + rest.length) s' := by rw [hstep, ih hat' hrest]
        _ = .running (start + (rest.length + 1)) s' := by rw [Nat.add_assoc, Nat.add_comm 1]

end Layout

section Simulation

variable {m : MethodDecl} {flow : Flow} {frames : Array (Option (Frame Expr))} {c c' : Config σ}

/-- What is known of a method that `isFaithful` accepts. -/
structure Faithful (known : List (Nat × Part)) (frames : Array (Option (Frame Expr))) (flow : Flow)
    (m : MethodDecl) : Prop where
  describes : flow.Describes m
  made : ∀ index part instr, known.lookup index = some part → m.code[index]? = some instr →
    part.isMadeBy instr
  everywhere : ∀ index < m.code.length, isFaithfulAt known frames flow index

/-- A configuration of a method and the one of the folded method that belongs to it. -/
inductive Related (known : List (Nat × Part)) (frames : Array (Option (Frame Expr))) (code : List Instr) :
    Config σ → Config σ → Prop where
  | running {pc : Nat} {s : Store σ} {frame : Frame Expr} (hframe : (frames[pc]?).join = some frame)
      (hfits : List.Forall₂ (Fits known) frame.stack s.stack) :
      Related known frames code (.running pc s)
        (.running (blockStart (blocks known code) pc) (reduced known frame.stack s))
  | ended {c : Config σ} (hended : c.pc? = none) : Related known frames code c c

/-- A run arrives at an instruction with a stack that the frame there describes. -/
theorem Related.of_arrives (code : List Instr) {pc : Nat} {es : List Expr} {s : Store σ}
    (h : arrives known frames pc es) (hfits : List.Forall₂ (Fits known) es s.stack) :
    Related known frames code (.running pc s)
      (.running (blockStart (blocks known code) pc) (reduced known es s)) := by
  unfold arrives at h
  split at h
  · next frame hframe =>
      rw [Bool.and_eq_true, beq_iff_eq, List.all_eq_true] at h
      have hagree : List.Forall₂ (fun e e' => agree known e e' = true) es frame.stack :=
        List.forall₂_iff_zip.2 ⟨h.1, fun hmem => h.2 _ hmem⟩
      obtain ⟨hfits', hleft⟩ := of_forall₂_agree hagree hfits
      rw [reduced, hleft]
      exact .running hframe hfits'
  · cases h

/-- The first part of the condition on an instruction, and where its stack may arrive. -/
structure FaithfulAt (known : List (Nat × Part)) (frames : Array (Option (Frame Expr))) (flow : Flow) (index : Nat)
    (instr : Instr) (effect : Effect) (frame after : Frame Expr) : Prop where
  effect_eq : Effect.ofInstr instr = .ok effect
  follows : ∀ part, known.lookup index = some part → part.follows known frame.stack
  plain : known.lookup index = none →
    ∀ e ∈ frame.stack.take (touched effect frame.stack), isPlain known e
  width : loadsWidth instr effect frame.locals
  execute_eq : frame.execute Domain.exprs index instr effect = .ok after
  arrive : ∃ next, flow.successors index instr effect = .ok next ∧
    ∀ target ∈ next, arrives known frames target after.stack
  handle : ∀ range ∈ flow.handlers, range.covers index →
    arrives known frames range.handler [Domain.exprs.fresh .reference]

theorem Faithful.at_frame (h : Faithful known frames flow m) {frame : Frame Expr}
    (hinstr : m.code[index]? = some instr) (hframe : (frames[index]?).join = some frame) :
    ∃ effect after, FaithfulAt known frames flow index instr effect frame after := by
  obtain ⟨effect, hcode, heffect⟩ := h.describes.exists_effect hinstr
  have hat := h.everywhere index (List.getElem?_eq_some_iff.1 hinstr).1
  unfold isFaithfulAt at hat
  rw [hcode, hframe] at hat
  simp only [Bool.and_eq_true] at hat
  obtain ⟨⟨⟨hpart, hnext⟩, hhandlers⟩, hwidth⟩ := hat
  split at hnext
  · next after next hafter hsuccessors =>
      refine ⟨effect, after, heffect, ?_, ?_, hwidth, hafter, ⟨next, hsuccessors, ?_⟩, ?_⟩
      · intro part hlookup
        rw [hlookup] at hpart
        exact hpart
      · intro hlookup
        rw [hlookup] at hpart
        exact List.all_eq_true.1 hpart
      · exact List.all_eq_true.1 hnext
      · intro range hrange hcovers
        have hrange := List.all_eq_true.1 hhandlers range hrange
        simpa [hcovers] using hrange
  · cases hnext

/-- An exception finds the same handler in both methods. -/
theorem related_throw (h : Faithful known frames flow m) (hinstr : m.code[index]? = some instr)
    (hblock : 0 < (block known (instr, index)).length)
    (hhandle : ∀ range ∈ flow.handlers, range.covers index →
      arrives known frames range.handler [Domain.exprs.fresh .reference])
    (locals : UInt16 → Value) (exception : Value) (memory : Memory σ) :
    proceed w m index locals (.throw exception memory) = .stuck ∨
      Related known frames m.code (proceed w m index locals (.throw exception memory))
        (proceed w (folded known m) (blockStart (blocks known m.code) index) locals
          (.throw exception memory)) := by
  have hhandler : handler? w (folded known m) (blockStart (blocks known m.code) index) exception memory =
      (handler? w m index exception memory).map (blockStart (blocks known m.code)) :=
    handler?_flatten (keepsLabels_blocks h.made) (getElem?_blocks known hinstr) hblock fun _ => rfl
  simp only [proceed, hhandler]
  split
  · next hreference =>
      cases hfound : handler? w m index exception memory with
      | none => exact .inr (.ended rfl)
      | some place =>
          obtain ⟨range, hrange, hcovers, rfl⟩ := exists_range_of_handler? h.describes hfound
          have hfresh : isPlain known (Domain.exprs.fresh .reference) := rfl
          have hsize : (Domain.exprs.fresh .reference).origin.size = exception.size := by
            rw [Value.size, hreference]
            rfl
          have hstore : reduced known [Domain.exprs.fresh .reference] ⟨locals, [exception], memory⟩ =
              ⟨locals, [exception], memory⟩ := by
            rw [reduced, leftover_cons_plain hfresh]
            rfl
          have hrelated := Related.of_arrives m.code (s := ⟨locals, [exception], memory⟩)
            (hhandle range hrange hcovers) (.cons (Fits.of_isPlain hfresh hsize) .nil)
          rw [hstore] at hrelated
          exact .inr hrelated
  · exact .inl rfl

/-- After an instruction without a part both methods go on at the same place. -/
theorem related_carried (h : Faithful known frames flow m) (hinstr : m.code[index]? = some instr)
    (hlookup : known.lookup index = none) {effect : Effect} {frame after : Frame Expr} {s : Store σ}
    (hat : FaithfulAt known frames flow index instr effect frame after)
    (hfits : List.Forall₂ (Fits known) frame.stack s.stack) :
    step w m (.running index s) = .stuck ∨
      Related known frames m.code (step w m (.running index s))
        (step w (folded known m)
          (.running (blockStart (blocks known m.code) index) (reduced known frame.stack s))) := by
  have hblock : block known (instr, index) = [instr] := by
    rw [block, hlookup]
    rfl
  have hinstr' : (folded known m).code[blockStart (blocks known m.code) index]? = some instr := by
    have hfirst := getElem?_folded known hinstr 0 (by simp [hblock])
    rwa [hblock] at hfirst
  have hlabels := keepsLabels_blocks h.made
  have hcarried := exec_carried (w := w) hat.effect_eq hlookup (hat.plain hlookup) hat.width hfits hat.execute_eq
  obtain ⟨next, hnext, harrive⟩ := hat.arrive
  rw [step, step, hinstr, hinstr']
  simp only [exec_of_effect hat.effect_eq]
  cases haction : execWith w instr s effect with
  | next s' =>
      rw [haction] at hcarried
      rw [hcarried.2]
      have hstart := blockStart_succ_block known hinstr
      rw [hblock, List.length_singleton] at hstart
      refine .inr ?_
      rw [proceed, proceed, ← hstart]
      exact Related.of_arrives m.code (harrive _ (mem_successors_of_next hat.effect_eq hnext haction)) hcarried.1
  | jump target s' =>
      rw [haction] at hcarried
      rw [hcarried.2]
      simp only [proceed, folded, place?_flatten hlabels]
      cases hplace : place? (labelPlaces m.code) target with
      | none => exact .inl rfl
      | some place =>
          refine .inr (Related.of_arrives m.code (harrive place ?_) hcarried.1)
          rw [← h.describes.places] at hplace
          exact mem_successors_of_jump hplace (execWith_eq_jump haction) hnext
  | leave result memory =>
      rw [haction] at hcarried
      rw [hcarried]
      exact .inr (.ended rfl)
  | throw exception memory =>
      rw [haction] at hcarried
      rw [hcarried]
      exact related_throw h hinstr (by rw [hblock]; exact Nat.one_pos) hat.handle s.locals exception memory
  | stuck => exact .inl rfl

/-- After an instruction with a part the folded method has executed its block. -/
theorem related_part (h : Faithful known frames flow m) (hinstr : m.code[index]? = some instr) {part : Part}
    (hlookup : known.lookup index = some part) {effect : Effect} {frame after : Frame Expr} {s : Store σ}
    (hat : FaithfulAt known frames flow index instr effect frame after)
    (hfits : List.Forall₂ (Fits known) frame.stack s.stack) :
    step w m (.running index s) = .stuck ∨ (step w m (.running index s)).pc? = some (index + 1) ∧
      Related known frames m.code (step w m (.running index s))
        (run w (folded known m) (block known (instr, index)).length
          (.running (blockStart (blocks known m.code) index) (reduced known frame.stack s))) := by
  rw [step, hinstr]
  rcases matches_part (w := w) hlookup (h.made index part instr hlookup hinstr) (hat.follows part hlookup)
    hat.effect_eq hat.execute_eq hfits with hstuck | ⟨s', hexec, hfits', hperforms⟩
  · exact .inl (by simp only [hstuck, proceed])
  · obtain ⟨next, hnext, harrive⟩ := hat.arrive
    rw [exec_of_effect hat.effect_eq] at hexec
    have hmem := mem_successors_of_next hat.effect_eq hnext hexec
    rw [run_performs (getElem?_folded known hinstr) hperforms, ← blockStart_succ_block known hinstr]
    simp only [exec_of_effect hat.effect_eq, hexec, proceed]
    exact .inr ⟨rfl, Related.of_arrives m.code (harrive _ hmem) hfits'⟩

/-- One step of the method is matched by some steps of the folded method, and where these are none, the method
goes on with the next instruction. -/
theorem related_step (h : Faithful known frames flow m) (hrelated : Related known frames m.code c c') :
    step w m c = .stuck ∨ ∃ count, Related known frames m.code (step w m c) (run w (folded known m) count c') ∧
      (count = 0 → ∀ pc, c.pc? = some pc → (step w m c).pc? = some (pc + 1)) := by
  cases hrelated with
  | ended hended =>
      refine .inr ⟨0, ?_, ?_⟩
      · rw [step_of_ended hended]
        exact .ended hended
      · intro _ pc hpc
        rw [hended] at hpc
        cases hpc
  | @running pc s frame hframe hfits =>
      cases hinstr : m.code[pc]? with
      | none => exact .inl (by rw [step, hinstr])
      | some instr =>
          obtain ⟨effect, after, hat⟩ := h.at_frame hinstr hframe
          cases hlookup : known.lookup pc with
          | none =>
              rcases related_carried (w := w) h hinstr hlookup hat hfits with hstuck | hnext
              · exact .inl hstuck
              · exact .inr ⟨1, hnext, fun hzero => absurd hzero Nat.one_ne_zero⟩
          | some part =>
              rcases related_part (w := w) h hinstr hlookup hat hfits with hstuck | ⟨hpc, hnext⟩
              · exact .inl hstuck
              · refine .inr ⟨_, hnext, ?_⟩
                intro _ pc' hpc'
                rw [← Option.some.inj hpc']
                exact hpc

/-- The folded method keeps up with the method as long as that is not stuck. -/
theorem keepsUp_folded (h : Faithful known frames flow m) :
    KeepsUp w m (folded known m) fun c c' => c = .stuck ∨ Related known frames m.code c c' := by
  rintro c c' (rfl | hrelated)
  · exact ⟨0, .inl rfl, nofun⟩
  · rcases related_step (w := w) h hrelated with hstuck | ⟨count, hnext, hnone⟩
    · exact ⟨1, .inl hstuck, fun hzero => absurd hzero Nat.one_ne_zero⟩
    · exact ⟨count, .inr hnext, hnone⟩

/-- A run that starts with an empty stack. -/
theorem related_entry {locals : UInt16 → Value} {memory : Memory σ} (h : arrives known frames 0 []) :
    Related known frames m.code (.running 0 ⟨locals, [], memory⟩) (.running 0 ⟨locals, [], memory⟩) := by
  have hrelated := Related.of_arrives m.code (s := ⟨locals, [], memory⟩) h .nil
  rwa [blockStart_zero] at hrelated

end Simulation

section Ending

variable {m m' : MethodDecl} {frames : Array (Option (Frame Expr))} {flow : Flow} {c c' : Config σ}

/-- A run comes to an end. -/
def Ends (w : World σ) (m : MethodDecl) (c ending : Config σ) : Prop :=
  ending.pc? = none ∧ ∃ steps, run w m steps c = ending

theorem Related.eq_of_ended {code : List Instr} (h : Related known frames code c c') (hended : c.pc? = none) :
    c' = c := by
  cases h with
  | running => cases hended
  | ended => rfl

theorem Related.pc?_ne_none {code : List Instr} (h : Related known frames code c c') (hrunning : c.pc? ≠ none) :
    c'.pc? ≠ none := by
  cases h with
  | running => exact Option.some_ne_none _
  | ended hended => exact absurd hended hrunning

/-- Where the method ends, the folded method ends the same way. -/
theorem ends_folded (h : Faithful known frames flow m) (hrelated : Related known frames m.code c c')
    {ending : Config σ} (hne : ending ≠ .stuck) (hends : Ends w m c ending) :
    Ends w (folded known m) c' ending := by
  obtain ⟨hended, steps, rfl⟩ := hends
  obtain ⟨count, hstuck | hreached, -⟩ := (keepsUp_folded (w := w) h).run (.inr hrelated) steps
  · exact absurd hstuck hne
  · exact ⟨hended, count, hreached.eq_of_ended hended⟩

/-- Where the method runs forever, so does the folded method. -/
theorem not_ends_folded (h : Faithful known frames flow m) (hrelated : Related known frames m.code c c')
    (hforever : ∀ ending, ¬ Ends w m c ending) (ending : Config σ) :
    ¬ Ends w (folded known m) c' ending := by
  rintro ⟨hended, steps, rfl⟩
  have hrunning : ∀ steps, (run w m steps c).pc? ≠ none :=
    fun steps hpc => hforever _ ⟨hpc, steps, rfl⟩
  obtain ⟨later, count, hle, hstuck | hreached⟩ :=
    (keepsUp_folded (w := w) h).exists_ge (.inr hrelated) hrunning steps
  · exact hrunning later (by rw [hstuck]; rfl)
  · have hlater := hreached.pc?_ne_none (hrunning later)
    rw [run_of_le hended hle] at hlater
    exact hlater hended

end Ending

section Method

variable {m m' : MethodDecl} {count : Nat}

/-- The parts of the instructions of a method. -/
def partsOf (m : MethodDecl) : List (Nat × Part) :=
  allParts m.code.toArray ((analyze Domain.exprs m).constantProducts m.code)

/-- A method that cannot be analysed stays as it is. -/
theorem fold_of_error {reason : AnalysisFault} (hresult : (analyze Domain.exprs m).result = .error reason)
    (h : (Logged.run (fold m)).2 = .ok (m', count)) : m' = m := by
  obtain ⟨log, hfold⟩ := Logged.run_eq_ok.1 h
  rcases fold_eq_ok hfold with ⟨-, hsame⟩ | ⟨_, _, hframes, -⟩
  · exact hsame
  · rw [hresult] at hframes
    cases hframes

/-- In any other method the instructions become their blocks. -/
theorem fold_of_ok {frames : Array (Option (Frame Expr))} (hresult : (analyze Domain.exprs m).result = .ok frames)
    (hdistinct : ((partsOf m).map Prod.fst).Nodup) (h : (Logged.run (fold m)).2 = .ok (m', count)) :
    m' = folded (partsOf m) m := by
  obtain ⟨log, hfold⟩ := Logged.run_eq_ok.1 h
  rcases fold_eq_ok hfold with ⟨⟨reason, hreason⟩, -⟩ | ⟨_, edits, -, hedits, hcode⟩
  · rw [hresult] at hreason
    cases hreason
  · rw [folded, ← applyEdits_eq hdistinct (foldlM_adds hedits)]
    exact hcode

/-- A method that `isFaithful` accepts. -/
theorem faithful_of_isFaithful (h : isFaithful m) {frames : Array (Option (Frame Expr))}
    (hresult : (analyze Domain.exprs m).result = .ok frames) :
    ((partsOf m).map Prod.fst).Nodup ∧ arrives (partsOf m) frames 0 [] ∧
      ∃ flow, Faithful (partsOf m) frames flow m := by
  simp only [isFaithful, hresult] at h
  split at h
  · next frames' flow hframes hflow =>
      obtain rfl := Except.ok.inj hframes
      simp only [Bool.and_eq_true, decide_eq_true_eq, List.all_eq_true] at h
      obtain ⟨⟨⟨hdistinct, hmade⟩, hentry⟩, hat⟩ := h
      have hdescribes := Flow.ofMethod_describes hflow
      refine ⟨hdistinct, hentry, flow, hdescribes, ?_, ?_⟩
      · intro index part instr hlookup hinstr
        have hpart := hmade _ ((lookup_eq_some_iff_mem hdistinct).1 hlookup)
        simpa [hinstr] using hpart
      · intro index hlt
        exact hat index (List.mem_range.2 hlt)
  · next hframes => cases hframes
  · cases h

/-- Folding succeeds, without a report, where the method can be analysed and the changes can be made. -/
theorem fold_of_edits {edits : Edits} (hanalysis : (analyze Domain.exprs m).result.isOk)
    (hedits : ((analyze Domain.exprs m).constantProducts m.code).foldlM (foldProduct m.code.toArray) ∅ = .ok edits) :
    fold m = pure ({ m with code := applyEdits edits m.code },
      ((analyze Domain.exprs m).constantProducts m.code).length) := by
  cases hresult : (analyze Domain.exprs m).result with
  | error reason =>
      rw [hresult] at hanalysis
      cases hanalysis
  | ok frames =>
      simp only [fold, hresult, hedits]
      rfl

/-- Folding succeeds where there is one product and the changes for it can be made. -/
theorem fold_of_product {product : Expr} (hanalysis : (analyze Domain.exprs m).result.isOk)
    (hproducts : (analyze Domain.exprs m).constantProducts m.code = [product])
    (hdistinct : ((partsOf m).map Prod.fst).Nodup)
    (hedits : ∃ edits, foldProduct m.code.toArray ∅ product = .ok edits) :
    (Logged.run (fold m)).2 = .ok (folded (partsOf m) m, 1) := by
  obtain ⟨edits, hedits⟩ := hedits
  have hfold : ((analyze Domain.exprs m).constantProducts m.code).foldlM (foldProduct m.code.toArray) ∅ =
      .ok edits := by
    rw [hproducts, List.foldlM_cons, hedits]
    rfl
  rw [folded, ← applyEdits_eq hdistinct (foldlM_adds hfold), fold_of_edits hanalysis hfold, hproducts]
  rfl

/-- Folding the multiplications of a faithful method does not change what it does: from the same locals and the
same memory the folded method ends as the method does, with the same result or exception and the same memory,
and runs forever where the method does. -/
theorem fold_preserves (h : (Logged.run (fold m)).2 = .ok (m', count)) (hfaithful : isFaithful m)
    (w : World σ) (locals : UInt16 → Value) (memory : Memory σ) :
    (∀ ending, ending ≠ .stuck → Ends w m (.running 0 ⟨locals, [], memory⟩) ending →
      Ends w m' (.running 0 ⟨locals, [], memory⟩) ending) ∧
    ((∀ ending, ¬ Ends w m (.running 0 ⟨locals, [], memory⟩) ending) →
      ∀ ending, ¬ Ends w m' (.running 0 ⟨locals, [], memory⟩) ending) := by
  cases hresult : (analyze Domain.exprs m).result with
  | error reason =>
      obtain rfl := fold_of_error hresult h
      exact ⟨fun _ _ hends => hends, fun hforever => hforever⟩
  | ok frames =>
      obtain ⟨hdistinct, hentry, flow, hfaithful⟩ := faithful_of_isFaithful hfaithful hresult
      obtain rfl := fold_of_ok hresult hdistinct h
      have hrelated : Related (partsOf m) frames m.code (.running 0 ⟨locals, [], memory⟩) _ := related_entry hentry
      exact ⟨fun ending hne hends => ends_folded hfaithful hrelated hne hends,
        fun hforever => not_ends_folded hfaithful hrelated hforever⟩

/-- Seven times the sum of three times one parameter and five times the other. -/
def weighted : MethodDecl :=
  { name := "weighted", descriptor := "(II)I", access := 8, maxLocals := 2, code :=
    [.label ⟨0⟩, .var Opcode.iload 0, .ldc (.int 3), .simple Opcode.imul, .var Opcode.iload 1,
      .ldc (.int 5), .simple Opcode.imul, .simple Opcode.iadd, .ldc (.int 7), .simple Opcode.imul,
      .simple Opcode.ireturn] }

theorem fold_weighted : (Logged.run (fold weighted)).2 = .ok ({ weighted with code :=
    [.label ⟨0⟩, .var Opcode.iload 0, .int Opcode.bipush 21, .simple Opcode.imul, .var Opcode.iload 1,
      .int Opcode.bipush 35, .simple Opcode.imul, .simple Opcode.iadd, .simple Opcode.ireturn] }, 1) := by
  have hproducts : (analyze Domain.exprs weighted).constantProducts weighted.code =
      [.mul ⟨1, [9]⟩ (.add ⟨1, [7]⟩ (.mul ⟨1, [3]⟩ (.var ⟨1, [1]⟩) (.const ⟨1, [2]⟩ (.int 3)))
        (.mul ⟨1, [6]⟩ (.var ⟨1, [4]⟩) (.const ⟨1, [5]⟩ (.int 5)))) (.const ⟨1, [8]⟩ (.int 7))] := by
    decide +kernel
  have hcode : folded (partsOf weighted) weighted = { weighted with code :=
      [.label ⟨0⟩, .var Opcode.iload 0, .int Opcode.bipush 21, .simple Opcode.imul, .var Opcode.iload 1,
        .int Opcode.bipush 35, .simple Opcode.imul, .simple Opcode.iadd, .simple Opcode.ireturn] } := by
    decide +kernel
  rw [← hcode]
  refine fold_of_product (by decide +kernel) hproducts (by decide +kernel) ?_
  show ∃ edits, scale _ (.int 1) ∅ = .ok edits
  simp [scale, scale.scaleVar, dropFactor, edit, makerOf, Expr.maker?, Origin.maker?, Expr.origin, Expr.isVar,
    Number.mul, Number.isOne, Number.toInt64, bind, Except.bind]

/-- From 2 and 3 the method returns 147, and so does the folded one. -/
theorem weighted_preserved : ∃ m', (Logged.run (fold weighted)).2 = .ok (m', 1) ∧ m' ≠ weighted ∧
    isFaithful weighted ∧ ∀ (w : World Unit) (memory : Memory Unit),
      Ends w m' (.running 0 ⟨fun slot => if slot = 0 then .int 2 else .int 3, [], memory⟩)
        (.returned (some (.int 147)) memory) := by
  have hfaithful : isFaithful weighted := by decide +kernel
  refine ⟨_, fold_weighted, by decide, hfaithful, ?_⟩
  intro w memory
  exact (fold_preserves fold_weighted hfaithful w _ memory).1 _ (by simp) ⟨rfl, 11, rfl⟩

/-- Three times the parameter, kept in another slot, and five times that; the sum of both is returned.  The
kept value is a copy, so that it changes with the product. -/
def shared : MethodDecl :=
  { name := "shared", descriptor := "(I)I", access := 8, maxLocals := 2, code :=
    [.var Opcode.iload 0, .ldc (.int 3), .simple Opcode.imul, .simple Opcode.dup, .var Opcode.istore 1,
      .ldc (.int 5), .simple Opcode.imul, .var Opcode.iload 1, .simple Opcode.iadd,
      .simple Opcode.ireturn] }

theorem fold_shared : (Logged.run (fold shared)).2 = .ok ({ shared with code :=
    [.var Opcode.iload 0, .int Opcode.bipush 15, .simple Opcode.imul, .simple Opcode.dup,
      .var Opcode.istore 1, .var Opcode.iload 1, .simple Opcode.iadd, .simple Opcode.ireturn] }, 1) := by
  have hproducts : (analyze Domain.exprs shared).constantProducts shared.code =
      [.mul ⟨1, [6]⟩ (.mul ⟨1, [2]⟩ (.var ⟨1, [0]⟩) (.const ⟨1, [1]⟩ (.int 3)))
        (.const ⟨1, [5]⟩ (.int 5))] := by
    decide +kernel
  have hcode : folded (partsOf shared) shared = { shared with code :=
      [.var Opcode.iload 0, .int Opcode.bipush 15, .simple Opcode.imul, .simple Opcode.dup,
        .var Opcode.istore 1, .var Opcode.iload 1, .simple Opcode.iadd, .simple Opcode.ireturn] } := by
    decide +kernel
  rw [← hcode]
  refine fold_of_product (by decide +kernel) hproducts (by decide +kernel) ?_
  show ∃ edits, scale _ (.int 1) ∅ = .ok edits
  simp [scale, scale.scaleVar, dropFactor, edit, makerOf, Expr.maker?, Origin.maker?, Expr.origin, Expr.isVar,
    Number.mul, Number.isOne, Number.toInt64, bind, Except.bind]

/-- A method that is not faithful: from 1 it returns 18, but when its multiplications are folded it returns
30. -/
theorem shared_not_preserved : ∃ m', (Logged.run (fold shared)).2 = .ok (m', 1) ∧ isFaithful shared = false ∧
    ∀ (w : World Unit) (memory : Memory Unit),
      Ends w shared (.running 0 ⟨fun _ => .int 1, [], memory⟩) (.returned (some (.int 18)) memory) ∧
      Ends w m' (.running 0 ⟨fun _ => .int 1, [], memory⟩) (.returned (some (.int 30)) memory) := by
  refine ⟨_, fold_shared, by decide +kernel, ?_⟩
  intro w memory
  exact ⟨⟨rfl, 10, rfl⟩, rfl, 8, rfl⟩

end Method

end Unscramble.Multiplier.Fold
