/-
Code in execution order.  Reordering takes whole blocks, so an instruction that can be reached keeps its successors: the
following instruction still follows, since the walk goes on from a block to the one into which it falls, and a label
still stands at one place only.
-/
import Unscramble.Proofs.BlockOrder

namespace Unscramble

namespace BlockGraph

section Chains

variable {blocks : List Block} {g : BlockGraph}

/-- A chain of blocks, each of which falls into the next one. -/
abbrev Falls (g : BlockGraph) (number number' : Nat) : Prop :=
  g.next? number = some number'

theorem originWithin_falls (h : Chained blocks g) (steps block : Nat) :
    Relation.ReflTransGen g.Falls (g.originWithin steps block) block := by
  induction steps generalizing block with
  | zero => exact .refl
  | succ steps ih =>
      rw [originWithin]
      split
      · next prev hprev => exact (ih prev).tail ((h.link prev block).2 hprev)
      · exact .refl

theorem prev?_originWithin (h : Chained blocks g) {steps block : Nat} (hle : block ≤ steps) :
    g.prev? (g.originWithin steps block) = none := by
  induction steps generalizing block with
  | zero =>
      obtain rfl := Nat.le_zero.1 hle
      refine Option.eq_none_iff_forall_ne_some.2 fun prev hprev => ?_
      have := h.succ prev 0 ((h.link prev 0).2 hprev)
      omega
  | succ steps ih =>
      rw [originWithin]
      split
      · next prev hprev =>
          have := h.succ prev block ((h.link prev block).2 hprev)
          exact ih (by omega)
      · next hnone => exact hnone

/-- No block falls into the first block of a chain. -/
theorem prev?_origin (h : Chained blocks g) (block : Nat) : g.prev? (g.origin block) = none := by
  rcases Nat.le_total block g.blocks.size with hle | hge
  · exact prev?_originWithin h hle
  · have hnone : g.prev? block = none := by simp [prev?, hge]
    suffices hself : g.origin block = block by rw [hself, hnone]
    rw [origin]
    cases g.blocks.size with
    | zero => rfl
    | succ steps => rw [originWithin, show (g.blocks[block]?).bind Block.prev = none from hnone]

theorem mem_flow_next {number number' : Nat} : number' ∈ g.flow.next number ↔
    g.Falls number number' ∨ ∃ block, g.Branches number block ∧ g.origin block = number' := by
  simp only [flow, Falls, next?, Branches]
  cases g.blocks[number]? with
  | none => simp
  | some b => simp

/-- Execution order enters a chain of fall-throughs at its first block only. -/
theorem chains_flow (h : Chained blocks g) : g.flow.Chains g.Falls where
  irrefl number hself := by
    have := h.succ number number hself
    omega
  unique a a' b hfirst hsecond :=
    Option.some.inj (((h.link a b).1 hfirst).symm.trans ((h.link a' b).1 hsecond))
  first a b hab := by
    obtain ⟨block, hblock, hnext⟩ := Option.bind_eq_some_iff.1 hab
    exact ⟨(block.branches.map g.origin).reverse, by simp [flow, hblock, hnext]⟩
  others a b hb := by
    refine (mem_flow_next.1 hb).imp id ?_
    rintro ⟨block, -, rfl⟩ c hc
    rw [Falls, h.link, prev?_origin h] at hc
    cases hc

/-- The walk through the blocks of code that is not empty. -/
theorem order_eq (hsize : 0 < g.blocks.size) : g.order = g.flow.walk [0] := by
  rw [order, if_neg]
  simpa using Nat.ne_of_gt hsize

theorem mem_order_falls (hsize : 0 < g.blocks.size) {number number' : Nat} (hmem : number ∈ g.order)
    (hfalls : Relation.ReflTransGen g.Falls number number') : number' ∈ g.order := by
  rw [order_eq hsize, Graph.mem_walk] at hmem ⊢
  obtain ⟨start, hstart, hreach⟩ := hmem
  have hsteps : Relation.ReflTransGen g.flow.Step number number' :=
    hfalls.lift id fun a b hab => mem_flow_next.2 (.inl hab)
  exact ⟨start, hstart, hreach.trans hsteps⟩

theorem mem_order_branch (h : Chained blocks g) (hsize : 0 < g.blocks.size) {number number' : Nat}
    (hmem : number ∈ g.order) (hbranch : g.Branches number number') : number' ∈ g.order := by
  refine mem_order_falls hsize ?_ (originWithin_falls h g.blocks.size number')
  rw [order_eq hsize, Graph.mem_walk] at hmem ⊢
  obtain ⟨start, hstart, hreach⟩ := hmem
  exact ⟨start, hstart, hreach.tail (mem_flow_next.2 (.inr ⟨number', hbranch, rfl⟩))⟩

theorem infix_order (h : Chained blocks g) (hsize : 0 < g.blocks.size) {number number' : Nat}
    (hmem : number ∈ g.order) (hfalls : g.Falls number number') : [number, number'] <:+: g.order := by
  rw [order_eq hsize] at hmem ⊢
  refine (chains_flow h).infix_walk ?_ hmem hfalls
  intro c hc
  have := h.succ c 0 hc
  omega

end Chains

section Layout

variable {blocks : List Block} {g : BlockGraph} {code : List Instr} {first last : Nat}

/-- The indexes of the instructions of a block. -/
def indexes (blocks : List Block) (number : Nat) : List Nat :=
  match blocks[number]? with
  | some b => List.range' b.start (b.stop - b.start)
  | none => []

/-- The old indexes of the instructions in execution order. -/
def layout (g : BlockGraph) (code : List Instr) : List Nat :=
  g.order.flatMap (indexes (blocksOf code))

theorem mem_indexes {number index : Nat} : index ∈ indexes blocks number ↔ Holds blocks number index := by
  unfold indexes Holds
  cases blocks[number]? with
  | none => simp
  | some b =>
      simp only [List.mem_range'_1, Option.some.injEq, exists_eq_left']
      omega

theorem mem_layout {index : Nat} :
    index ∈ g.layout code ↔ ∃ number ∈ g.order, Holds (blocksOf code) number index := by
  simp [layout, List.mem_flatMap, mem_indexes]

theorem nodup_order (g : BlockGraph) : g.order.Nodup := by
  rw [order]
  split
  · exact List.nodup_nil
  · exact Graph.nodup_walk [0]

theorem nodup_layout (g : BlockGraph) (code : List Instr) : (g.layout code).Nodup := by
  refine List.nodup_flatMap.2 ⟨fun number _ => ?_, (nodup_order g).imp fun hne => ?_⟩
  · unfold indexes
    split
    · exact List.nodup_range'
    · exact List.nodup_nil
  · intro index hfirst hsecond
    exact hne ((mem_indexes.1 hfirst).unique (tiles_blocksOf code) (mem_indexes.1 hsecond))

theorem extract_map_some {b : Block} (hstop : b.stop ≤ code.length) :
    ((code.toArray.extract b.start b.stop).toList).map some =
      (List.range' b.start (b.stop - b.start)).map (code[·]?) := by
  refine List.ext_getElem? fun index => ?_
  simp only [List.extract_toArray, List.getElem?_map, List.extract_eq_take_drop, List.getElem?_take,
    List.getElem?_drop]
  by_cases hindex : index < b.stop - b.start
  · simp [hindex, show b.start + index < code.length by omega]
  · simp [hindex]

/-- Reordered code takes its instructions from the layout. -/
theorem reorder_map_some (h : Chained (blocksOf code) g) :
    (g.reorder code).map some = (g.layout code).map (code[·]?) := by
  simp only [reorder, layout, List.map_flatMap]
  congr 1
  funext number
  have hbounds := h.bounds number
  unfold indexes
  cases hb : (blocksOf code)[number]? with
  | none =>
      rw [hb, Option.map_none, Option.map_eq_none_iff] at hbounds
      simp [hbounds]
  | some b =>
      rw [hb, Option.map_some, Option.map_eq_some_iff] at hbounds
      obtain ⟨c, hc, heq⟩ := hbounds
      obtain ⟨hstart, hstop⟩ := Prod.mk.inj heq
      have hlast := ((tiles_blocksOf code).bounds hb).2.2
      simp only [hc]
      rw [← hstart, ← hstop, extract_map_some (by omega)]

theorem indexes_eq_append {number index : Nat} {b : Block} (hb : blocks[number]? = some b)
    (hstart : b.start ≤ index) (hstop : index ≤ b.stop) : indexes blocks number =
      List.range' b.start (index - b.start) ++ List.range' index (b.stop - index) := by
  rw [indexes, hb]
  dsimp only
  rw [show b.stop - b.start = (index - b.start) + (b.stop - index) by omega, ← List.range'_append_1,
    show b.start + (index - b.start) = index by omega]

/-- The following instruction of the same block follows. -/
theorem infix_layout_of_mem {number index : Nat} (hmem : number ∈ g.order)
    (hholds : Holds (blocksOf code) number index) (hnext : Holds (blocksOf code) number (index + 1)) :
    [index, index + 1] <:+: g.layout code := by
  obtain ⟨b, hb, hstart, -⟩ := hholds
  obtain ⟨c, hc, -, hstop⟩ := hnext
  obtain rfl := Option.some.inj (hb.symm.trans hc)
  have hindexes := indexes_eq_append hb hstart (by omega)
  rw [show b.stop - index = (b.stop - index - 2) + 1 + 1 by omega, List.range'_succ, List.range'_succ] at hindexes
  have hinfix : indexes (blocksOf code) number <:+: g.layout code := by
    rw [layout, List.flatMap]
    exact List.infix_of_mem_flatten (List.mem_map_of_mem hmem)
  exact List.IsInfix.trans ⟨_, _, by rw [hindexes, List.append_assoc]; rfl⟩ hinfix

/-- The first instruction of a block follows the last one of the block that falls into it. -/
theorem infix_layout_of_falls (h : Chained (blocksOf code) g) (hsize : 0 < g.blocks.size)
    {number number' index : Nat} (hmem : number ∈ g.order) (hholds : Holds (blocksOf code) number index)
    (hnext : Holds (blocksOf code) number' (index + 1)) (hfalls : g.Falls number number') :
    [index, index + 1] <:+: g.layout code := by
  obtain ⟨before, after, horder⟩ := infix_order h hsize hmem hfalls
  obtain ⟨b, hb, hstart, hstop⟩ := hholds
  obtain ⟨c, hc, hstart', hstop'⟩ := hnext
  have hsucc := h.succ number number' hfalls
  have hmeet := (tiles_blocksOf code).stop_le hb hc (by omega)
  have hlast := indexes_eq_append hb hstart (by omega)
  have hfirst := indexes_eq_append hc hstart' (by omega)
  rw [show b.stop - index = 0 + 1 by omega, List.range'_succ, List.range'_zero] at hlast
  rw [show index + 1 - c.start = 0 by omega, List.range'_zero, List.nil_append,
    show c.stop - (index + 1) = (c.stop - (index + 1) - 1) + 1 by omega, List.range'_succ] at hfirst
  refine ⟨before.flatMap (indexes (blocksOf code)) ++ List.range' b.start (index - b.start),
    List.range' (index + 1 + 1) (c.stop - (index + 1) - 1) ++ after.flatMap (indexes (blocksOf code)), ?_⟩
  rw [layout, ← horder]
  simp [hlast, hfirst]

end Layout

end BlockGraph

namespace Flow

/-- An instruction at another place goes on to where its successors have moved, if the following instruction and the
labels to which it jumps have. -/
theorem successors_moved {flow flow' : Flow} {moved : Nat → Nat} {index index' : Nat} {instr : Instr}
    {effect : Effect} {next : List Nat} (h : flow.successors index instr effect = .ok next)
    (hfollowing : index + 1 ∈ next → moved (index + 1) = index' + 1)
    (htarget : ∀ label, ∀ place ∈ next, flow.target label = .ok place →
      flow'.target label = .ok (moved place)) :
    flow'.successors index' instr effect = .ok (next.map moved) := by
  unfold successors at h ⊢
  split at h
  · next op label =>
      obtain ⟨place, hplace, h⟩ := bind_eq_ok.1 h
      obtain rfl := Except.ok.inj h
      refine bind_eq_ok.2 ⟨moved place, htarget label place (by split <;> simp) hplace, ?_⟩
      by_cases hgoto : op == Opcode.goto
      · simp [hgoto, pure, Except.pure]
      · simp [hgoto, hfollowing, pure, Except.pure]
  · exact mapM_map_eq_ok h htarget
  · exact mapM_map_eq_ok h htarget
  · split at h
    · rw [← Except.ok.inj h]
      rfl
    · rw [← Except.ok.inj h]
      rfl
    · obtain rfl := Except.ok.inj h
      simp [hfollowing]

end Flow

theorem idxOf_succ_of_infix {layout : List Nat} {index following : Nat} (hnodup : layout.Nodup)
    (h : [index, following] <:+: layout) : layout.idxOf following = layout.idxOf index + 1 := by
  obtain ⟨before, after, rfl⟩ := h
  rw [List.append_assoc, List.nodup_append] at hnodup
  have hindex : index ∉ before := fun hmem => hnodup.2.2 index hmem index (by simp) rfl
  have hfollowing : following ∉ before := fun hmem => hnodup.2.2 following hmem following (by simp) rfl
  have hne : following ≠ index := by
    rintro rfl
    simp at hnodup
  simp [List.idxOf_append_of_notMem, hindex, hfollowing, hne.symm]

section Places

variable {code code' : List Instr} {layout : List Nat} {index : Nat}

/-- Code that takes its instructions from the places that a layout lists has them at their new places. -/
theorem getElem?_of_layout (h : code'.map some = layout.map (code[·]?)) (place : Nat) :
    code'[place]? = (layout[place]?).bind (code[·]?) := by
  have hmap := congrArg (·[place]?) h
  simp only [List.getElem?_map] at hmap
  cases hplace : layout[place]? with
  | none => simpa [hplace] using hmap
  | some index =>
      rw [hplace, Option.map_some, Option.map_eq_some_iff] at hmap
      obtain ⟨instr, hinstr, heq⟩ := hmap
      rw [hinstr, Option.bind_some, heq]

theorem getElem?_idxOf_of_layout (h : code'.map some = layout.map (code[·]?)) (hindex : index ∈ layout) :
    code'[layout.idxOf index]? = code[index]? := by
  rw [getElem?_of_layout h, List.getElem?_idxOf hindex, Option.bind_some]

/-- A label that stands once, and whose place is listed once, stands at its new place only. -/
theorem place?_of_layout (h : code'.map some = layout.map (code[·]?)) (hnodup : layout.Nodup)
    (hlabels : LabelsOnce code) {label : Label} (hindex : index ∈ layout)
    (hplace : place? (labelPlaces code) label = some index) :
    place? (labelPlaces code') label = some (layout.idxOf index) := by
  refine place?_of_unique ?_ fun other hother => ?_
  · rw [getElem?_idxOf_of_layout h hindex, place?_labelPlaces hplace]
  · rw [getElem?_of_layout h] at hother
    obtain ⟨old, hold, hlabel⟩ := Option.bind_eq_some_iff.1 hother
    rw [← hlabels.place?_eq_some_iff, hplace] at hlabel
    obtain rfl := Option.some.inj hlabel
    obtain ⟨hlt, rfl⟩ := List.getElem?_eq_some_iff.1 hold
    exact (hnodup.idxOf_getElem other hlt).symm

/-- An instruction that moves with its successors goes on to their new places. -/
theorem Flow.successors_of_layout {m m' : MethodDecl} {flow flow' : Flow} {instr : Instr} {effect : Effect}
    {next : List Nat} (hflow : flow.Describes m) (hflow' : flow'.Describes m')
    (h : m'.code.map some = layout.map (m.code[·]?))
    (hplaces : ∀ {label : Label} {place : Nat}, place ∈ layout → place? (labelPlaces m.code) label = some place →
      place? (labelPlaces m'.code) label = some (layout.idxOf place))
    (hindex : index ∈ layout) (hinstr : flow.code[index]? = some (instr, effect))
    (hnext : flow.successors index instr effect = .ok next) (hmem : ∀ target ∈ next, target ∈ layout)
    (hfollowing : index + 1 ∈ next → layout.idxOf (index + 1) = layout.idxOf index + 1) :
    flow'.code[layout.idxOf index]? = some (instr, effect) ∧
      flow'.successors (layout.idxOf index) instr effect = .ok (next.map layout.idxOf) := by
  have hold := hflow.getElem?_code hinstr
  obtain ⟨effect', hcode, heffect⟩ := hflow.exists_effect hold
  obtain ⟨-, rfl⟩ := Prod.mk.inj (Option.some.inj (hinstr.symm.trans hcode))
  obtain ⟨effect', hnew, heffect'⟩ := hflow'.exists_effect ((getElem?_idxOf_of_layout h hindex).trans hold)
  obtain rfl := Except.ok.inj (heffect.symm.trans heffect')
  refine ⟨hnew, Flow.successors_moved hnext hfollowing ?_⟩
  intro label place hplace htarget
  rw [Flow.target_eq_ok, hflow.places] at htarget
  rw [Flow.target_eq_ok, hflow'.places, hplaces (hmem place hplace) htarget]

end Places

namespace BlockGraph

variable {m : MethodDecl} {flow : Flow} {g : BlockGraph}

/-- A graph holds the control flow of a method from every instruction that can be reached. -/
structure Follows (g : BlockGraph) (m : MethodDecl) (flow : Flow) : Prop where
  chained : Chained (blocksOf m.code) g
  inside : ∀ index, flow.Reaches index → index < m.code.length
  next : ∀ index, flow.Reaches index → ∃ instr effect next,
    flow.code[index]? = some (instr, effect) ∧ flow.successors index instr effect = .ok next
  joins : ∀ source target, flow.Reaches source → flow.Edge source target →
    Joins (blocksOf m.code) g (source, target)

theorem build_follows (hcode : m.code ≠ []) (h : build m = .ok g) :
    ∃ flow, Flow.ofMethod m = .ok flow ∧ g.Follows m flow := by
  simp only [build] at h
  split at h
  · cases h
  · next frames hframes =>
      obtain ⟨flow, entry, hflow, -, hcomplete⟩ :=
        Analysis.isFixpoint_of_lawful Domain.kinds_lawful hcode hframes
      have hinside : ∀ index, flow.Reaches index → index < m.code.length := fun index hreach =>
        (Flow.ofMethod_describes hflow).size_eq ▸ hcomplete.lt_size hreach
      have hedges : ∀ edge ∈ (analyze Domain.kinds m).edges,
          edge.1 < m.code.length ∧ edge.2 < m.code.length := by
        rintro ⟨source, target⟩ hmem
        obtain ⟨hreach, hedge⟩ := (hcomplete.edges source target).1 hmem
        exact ⟨hinside source hreach, hinside target (hreach.edge hedge)⟩
      obtain ⟨hchained, hjoins⟩ := foldl_withEdge_spec hedges (chained_blocksOf m.code)
      obtain rfl := Except.ok.inj h
      refine ⟨flow, hflow, hchained, hinside, fun index => hcomplete.exists_next, fun source target hreach hedge => ?_⟩
      exact hjoins (source, target) (.inl ((hcomplete.edges source target).2 ⟨hreach, hedge⟩))

namespace Follows

theorem exists_holds (h : g.Follows m flow) {index : Nat} (hreach : flow.Reaches index) :
    ∃ number, Holds (blocksOf m.code) number index := by
  obtain ⟨number, -, hholds⟩ :=
    (tiles_blocksOf m.code).exists_number 0 (Nat.zero_le index) (h.inside index hreach)
  exact ⟨number, hholds⟩

theorem size_pos (h : g.Follows m flow) : 0 < g.blocks.size := by
  obtain ⟨number, hholds⟩ := h.exists_holds .entry
  exact Nat.lt_of_le_of_lt (Nat.zero_le number) (h.chained.lt_size hholds)

theorem zero_mem_order (h : g.Follows m flow) : 0 ∈ g.order := by
  rw [order_eq h.size_pos]
  exact Graph.mem_walk.2 ⟨0, List.mem_cons_self, .refl⟩

/-- Execution order has every block with an instruction that can be reached. -/
theorem exists_mem_order (h : g.Follows m flow) (hhandlers : flow.handlers = []) {index : Nat}
    (hreach : flow.Reaches index) : ∃ number ∈ g.order, Holds (blocksOf m.code) number index := by
  induction hreach with
  | entry =>
      obtain ⟨b, hb, hstart, hstop⟩ := (tiles_blocksOf m.code).exists_first (h.inside 0 .entry)
      exact ⟨0, h.zero_mem_order, b, hb, Nat.le_of_eq hstart, hstop⟩
  | @edge source target hsource hedge ih =>
      obtain ⟨number, hmem, hholds⟩ := ih
      obtain ⟨number', hholds'⟩ := h.exists_holds (hsource.edge hedge)
      refine ⟨number', ?_, hholds'⟩
      by_cases heq : number = number'
      · exact heq ▸ hmem
      · have hjoins := h.joins source target hsource hedge number number' hholds hholds' heq
        split at hjoins
        · exact mem_order_falls h.size_pos hmem (.single hjoins)
        · exact mem_order_branch h.chained h.size_pos hmem hjoins
  | handler _ hrange => simp [hhandlers] at hrange

/-- The following instruction still follows an instruction that goes on to it. -/
theorem infix_layout (h : g.Follows m flow) (hhandlers : flow.handlers = []) {index : Nat}
    (hreach : flow.Reaches index) (hedge : flow.Edge index (index + 1)) :
    [index, index + 1] <:+: g.layout m.code := by
  obtain ⟨number, hmem, hholds⟩ := h.exists_mem_order hhandlers hreach
  obtain ⟨number', hholds'⟩ := h.exists_holds (hreach.edge hedge)
  by_cases heq : number = number'
  · exact infix_layout_of_mem hmem hholds (heq ▸ hholds')
  · have hjoins := h.joins index (index + 1) hreach hedge number number' hholds hholds' heq
    rw [if_pos rfl] at hjoins
    exact infix_layout_of_falls h.chained h.size_pos hmem hholds hholds' hjoins

theorem head?_layout (h : g.Follows m flow) : (g.layout m.code).head? = some 0 := by
  obtain ⟨b, hb, hstart, hstop⟩ := (tiles_blocksOf m.code).exists_first (h.inside 0 .entry)
  obtain ⟨later, hlater⟩ := Graph.exists_walk_eq_cons g.flow 0
  have hindexes := indexes_eq_append hb (Nat.le_of_eq hstart) (Nat.zero_le b.stop)
  rw [show b.stop - 0 = b.stop - 1 + 1 by omega, List.range'_succ] at hindexes
  rw [layout, order_eq h.size_pos, hlater, List.flatMap_cons, hindexes, hstart]
  rfl

end Follows

/-- An instruction of the layout stands at its new place. -/
theorem getElem?_reorder (h : Chained (blocksOf m.code) g) (place : Nat) :
    (g.reorder m.code)[place]? = ((g.layout m.code)[place]?).bind (m.code[·]?) :=
  getElem?_of_layout (reorder_map_some h) place

/-- An instruction that can be reached goes on to the new places of its successors. -/
theorem Follows.successors_reorder {flow' : Flow} (h : g.Follows m flow) (hlabels : LabelsOnce m.code)
    (hhandlers : flow.handlers = []) (hflow : flow.Describes m)
    (hflow' : flow'.Describes { m with code := g.reorder m.code }) {index : Nat} (hreach : flow.Reaches index) :
    ∃ instr effect next, flow.code[index]? = some (instr, effect) ∧
      flow'.code[(g.layout m.code).idxOf index]? = some (instr, effect) ∧
      flow.successors index instr effect = .ok next ∧
      flow'.successors ((g.layout m.code).idxOf index) instr effect =
        .ok (next.map (g.layout m.code).idxOf) := by
  have hmem : ∀ {place}, flow.Reaches place → place ∈ g.layout m.code :=
    fun hplace => mem_layout.2 (h.exists_mem_order hhandlers hplace)
  obtain ⟨instr, effect, next, hcode, hnext⟩ := h.next index hreach
  have hstep : ∀ target ∈ next, flow.Edge index target :=
    fun target htarget => ⟨instr, effect, next, hcode, hnext, htarget⟩
  have hnodup := nodup_layout g m.code
  obtain ⟨hcode', hnext'⟩ := Flow.successors_of_layout hflow hflow' (reorder_map_some h.chained)
    (place?_of_layout (reorder_map_some h.chained) hnodup hlabels) (hmem hreach) hcode hnext
    (fun target htarget => hmem (hreach.edge (hstep target htarget)))
    (fun hfollowing => idxOf_succ_of_infix hnodup (h.infix_layout hhandlers hreach (hstep _ hfollowing)))
  exact ⟨instr, effect, next, hcode, hcode', hnext, hnext'⟩

theorem Follows.perm_reorder (h : g.Follows m flow) (hhandlers : flow.handlers = [])
    (hall : ∀ index < m.code.length, flow.Reaches index) : (g.reorder m.code).Perm m.code := by
  have hlayout : (g.layout m.code).Perm (List.range m.code.length) := by
    refine (List.perm_ext_iff_of_nodup (nodup_layout g m.code) List.nodup_range).2 fun index => ?_
    rw [List.mem_range]
    refine ⟨fun hmem => ?_, fun hlt => mem_layout.2 (h.exists_mem_order hhandlers (hall index hlt))⟩
    obtain ⟨number, -, b, hb, -, hstop⟩ := mem_layout.1 hmem
    exact Nat.lt_of_lt_of_le hstop ((tiles_blocksOf m.code).bounds hb).2.2
  have hcode : (List.range m.code.length).map (m.code[·]?) = m.code.map some := by
    refine List.ext_getElem? fun index => ?_
    by_cases hindex : index < m.code.length <;> simp [hindex]
  have hsome : ((g.reorder m.code).map some).Perm (m.code.map some) := by
    rw [reorder_map_some h.chained, ← hcode]
    exact hlayout.map _
  simpa using hsome.filterMap id

/-- Instructions of a method have moved from the places that `layout` lists, and control flow has moved with them. -/
structure Moved (m : MethodDecl) (flow : Flow) (layout : List Nat) (code : List Instr) (flow' : Flow) : Prop where
  /-- Each instruction is that of the old place. -/
  instrs : code.map some = layout.map (m.code[·]?)
  /-- No old place is used twice. -/
  nodup : layout.Nodup
  /-- The first instruction stays the first one. -/
  entry : m.code ≠ [] → layout.head? = some 0
  /-- What can be reached is still there. -/
  reached : ∀ index < m.code.length, flow.Reaches index → index ∈ layout
  /-- An instruction that can be reached goes on to the new places of the instructions to which it went on, in the same
  order. -/
  next : ∀ index < m.code.length, flow.Reaches index → ∃ instr effect next,
    flow.code[index]? = some (instr, effect) ∧ flow'.code[layout.idxOf index]? = some (instr, effect) ∧
      flow.successors index instr effect = .ok next ∧
      flow'.successors (layout.idxOf index) instr effect = .ok (next.map layout.idxOf)
  /-- If all can be reached, nothing is lost. -/
  perm : (∀ index < m.code.length, flow.Reaches index) → code.Perm m.code

/-- New code for a method keeps the control flow of the old one. -/
def KeepsFlow (m : MethodDecl) (code : List Instr) : Prop :=
  ∃ flow layout flow', Flow.ofMethod m = .ok flow ∧ Flow.ofMethod { m with code } = .ok flow' ∧
    Moved m flow layout code flow'

/-- Reordering the blocks of a method without handlers keeps its control flow. -/
theorem reorder_keepsFlow (htries : m.tries = []) (hlabels : LabelsOnce m.code) (hbuild : build m = .ok g) :
    KeepsFlow m (g.reorder m.code) := by
  by_cases hcode : m.code = []
  · have hg : g = ⟨#[]⟩ := by
      rw [build, analyze, hcode] at hbuild
      exact (Except.ok.inj hbuild).symm
    have hreorder : g.reorder m.code = [] := by
      rw [hg]
      rfl
    have hflow : Flow.ofMethod m = .ok ⟨#[], [], []⟩ := by
      rw [Flow.ofMethod, htries, hcode]
      rfl
    have hsame : { m with code := g.reorder m.code } = m := by
      rw [hreorder, ← hcode]
    refine ⟨_, [], _, hflow, by rw [hsame, hflow], by simp [hreorder], List.nodup_nil, absurd hcode, ?_, ?_, ?_⟩
    · simp [hcode]
    · simp [hcode]
    · intro _
      rw [hreorder, hcode]
  · obtain ⟨flow, hflow, hfollows⟩ := build_follows hcode hbuild
    have hdescribes := Flow.ofMethod_describes hflow
    have hhandlers : flow.handlers = [] := by simpa [htries] using hdescribes.handlers
    obtain ⟨flow', hflow'⟩ : ∃ flow', Flow.ofMethod { m with code := g.reorder m.code } = .ok flow' := by
      refine Flow.exists_ofMethod (by simp [htries]) fun instr hinstr => ?_
      obtain ⟨place, hplace⟩ := List.mem_iff_getElem?.1 hinstr
      rw [getElem?_reorder hfollows.chained] at hplace
      obtain ⟨index, -, hindex⟩ := Option.bind_eq_some_iff.1 hplace
      obtain ⟨effect, -, heffect⟩ := hdescribes.exists_effect hindex
      exact ⟨effect, heffect⟩
    refine ⟨flow, g.layout m.code, flow', hflow, hflow', reorder_map_some hfollows.chained,
      nodup_layout g m.code, fun _ => hfollows.head?_layout, fun index _ hreach => ?_,
      fun index _ hreach => ?_, hfollows.perm_reorder hhandlers⟩
    · exact mem_layout.2 (hfollows.exists_mem_order hhandlers hreach)
    · exact hfollows.successors_reorder hlabels hhandlers hdescribes (Flow.ofMethod_describes hflow') hreach

/-- A loop that is entered in the middle, with its exit before its body. -/
def scrambled : MethodDecl where
  name := "scrambled"
  descriptor := "(I)I"
  access := Access.staticBit
  code := [.jump Opcode.goto ⟨1⟩, .label ⟨0⟩, .var Opcode.iload 0, .simple Opcode.ireturn, .label ⟨2⟩,
    .iinc 0 (-1), .label ⟨1⟩, .var Opcode.iload 0, .jump Opcode.ifeq ⟨0⟩, .jump Opcode.goto ⟨2⟩]

/-- The blocks of the loop: the entry, the exit, and a chain of three, to the second of which the entry jumps. -/
def scrambledBlocks : Array Block :=
  #[{ start := 0, stop := 1, branches := [3] }, { start := 1, stop := 4 },
    { start := 4, stop := 6, next := some 3 },
    { start := 6, stop := 9, next := some 4, prev := some 2, branches := [1] },
    { start := 9, stop := 10, prev := some 3, branches := [2] }]

theorem scrambled_keepsFlow :
    scrambled.tries = [] ∧ LabelsOnce scrambled.code ∧ build scrambled = .ok ⟨scrambledBlocks⟩ ∧
      reorder ⟨scrambledBlocks⟩ scrambled.code =
        [.jump Opcode.goto ⟨1⟩, .label ⟨2⟩, .iinc 0 (-1), .label ⟨1⟩, .var Opcode.iload 0,
          .jump Opcode.ifeq ⟨0⟩, .jump Opcode.goto ⟨2⟩, .label ⟨0⟩, .var Opcode.iload 0,
          .simple Opcode.ireturn] ∧
      KeepsFlow scrambled (reorder ⟨scrambledBlocks⟩ scrambled.code) := by
  have hlabels : LabelsOnce scrambled.code := by decide
  have hblocks : (build scrambled).toOption.map blocks = some scrambledBlocks := by decide +kernel
  have hbuild : build scrambled = .ok ⟨scrambledBlocks⟩ := by
    cases h : build scrambled with
    | error reason => simp [h, Except.toOption] at hblocks
    | ok g =>
        rw [h] at hblocks
        rw [← Option.some.inj hblocks]
  exact ⟨rfl, hlabels, hbuild, by cbv, reorder_keepsFlow rfl hlabels hbuild⟩

end BlockGraph

end Unscramble
