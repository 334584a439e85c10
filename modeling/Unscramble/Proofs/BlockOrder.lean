/-
Laying out the blocks of a method anew.  Fall-throughs join neighbouring blocks to chains, a walk enters a chain only at
its first block, and so each block is followed by the one into which it falls.  Every instruction that can be reached
therefore goes on to the same instructions as before.
-/
import Unscramble.BlockGraph
import Unscramble.Proofs.DomainLaws
import Unscramble.Proofs.Fixpoint
import Unscramble.Proofs.Walks

namespace Unscramble

/-- Where a block starts and stops. -/
def Block.bounds (b : Block) : Nat × Nat :=
  (b.start, b.stop)

namespace BlockGraph

/-- Blocks that cover the indexes from `first` up to but excluding `last`, one after the other. -/
inductive Tiles : List Block → (first last : Nat) → Prop where
  | nil {first : Nat} : Tiles [] first first
  | cons {b : Block} {rest : List Block} {first last : Nat} : b.start = first → first < b.stop →
      Tiles rest b.stop last → Tiles (b :: rest) first last

/-- The instruction at an index belongs to the block of a number. -/
def Holds (blocks : List Block) (number index : Nat) : Prop :=
  ∃ b, blocks[number]? = some b ∧ b.start ≤ index ∧ index < b.stop

theorem exists_split_eq {code : List Instr} {index start : Nat} {done : List Block} (hstart : start ≤ index)
    (hcode : code ≠ []) : ∃ blocks, split code index start done = done.reverse ++ blocks ∧
      Tiles blocks start (index + code.length) ∧ ∀ b ∈ blocks, b.next = none ∧ b.prev = none := by
  fun_induction split code index start done with
  | case1 => exact absurd rfl hcode
  | case2 instr index start done =>
      exact ⟨[{ start, stop := index + 1 }], by simp, .cons rfl (Nat.lt_succ_of_le hstart) .nil, by simp⟩
  | case3 instr following rest index start done _ ih =>
      obtain ⟨blocks, hsplit, htiles, hnew⟩ := ih (Nat.le_refl _) (by simp)
      refine ⟨{ start, stop := index + 1 } :: blocks, by simp [hsplit], ?_, by simpa using hnew⟩
      refine .cons rfl (Nat.lt_succ_of_le hstart) ?_
      simpa [Nat.add_comm, Nat.add_left_comm] using htiles
  | case4 instr following rest index start done _ ih =>
      obtain ⟨blocks, hsplit, htiles, hnew⟩ := ih (by omega) (by simp)
      exact ⟨blocks, hsplit, by simpa [Nat.add_comm, Nat.add_left_comm] using htiles, hnew⟩

/-- The blocks of some code before they are joined. -/
def blocksOf (code : List Instr) : List Block :=
  split code 0 0 []

/-- The blocks of some code cover it, and none is joined to another one yet. -/
theorem blocksOf_spec (code : List Instr) : Tiles (blocksOf code) 0 code.length ∧
    ∀ b ∈ blocksOf code, b.next = none ∧ b.prev = none := by
  by_cases hcode : code = []
  · subst hcode
    exact ⟨.nil, nofun⟩
  · have hsplit : ∃ blocks, blocksOf code = [].reverse ++ blocks ∧ Tiles blocks 0 (0 + code.length) ∧
        ∀ b ∈ blocks, b.next = none ∧ b.prev = none := exists_split_eq (Nat.le_refl 0) hcode
    simpa using hsplit

theorem tiles_blocksOf (code : List Instr) : Tiles (blocksOf code) 0 code.length :=
  (blocksOf_spec code).1

section Tiles

variable {blocks : List Block} {first last index : Nat}

theorem Tiles.le (h : Tiles blocks first last) : first ≤ last := by
  induction h with
  | nil => exact Nat.le_refl _
  | cons _ hlt _ ih => omega

theorem Tiles.exists_first (h : Tiles blocks first last) (hlt : first < last) :
    ∃ b, blocks[0]? = some b ∧ b.start = first ∧ first < b.stop := by
  cases h with
  | nil => omega
  | cons hstart hstop _ => exact ⟨_, rfl, hstart, hstop⟩

theorem Tiles.bounds (h : Tiles blocks first last) {number : Nat} {b : Block}
    (hb : blocks[number]? = some b) : first ≤ b.start ∧ b.start < b.stop ∧ b.stop ≤ last := by
  induction h generalizing number with
  | nil => simp at hb
  | cons hstart hlt htiles ih =>
      cases number with
      | zero =>
          obtain rfl := Option.some.inj hb
          exact ⟨Nat.le_of_eq hstart.symm, hstart ▸ hlt, htiles.le⟩
      | succ number =>
          have := ih hb
          omega

/-- Earlier blocks end before later ones start, and neighbours meet. -/
theorem Tiles.stop_le (h : Tiles blocks first last) {low high : Nat} {b c : Block}
    (hb : blocks[low]? = some b) (hc : blocks[high]? = some c) (hlt : low < high) :
    b.stop ≤ c.start := by
  induction h generalizing low high with
  | nil => simp at hb
  | cons _ _ htiles ih =>
      cases high with
      | zero => omega
      | succ high =>
          cases low with
          | zero =>
              obtain rfl := Option.some.inj hb
              exact (htiles.bounds hc).1
          | succ low => exact ih hb hc (by omega)

theorem Holds.unique (h : Tiles blocks first last) {number number' : Nat} (hnumber : Holds blocks number index)
    (hnumber' : Holds blocks number' index) : number = number' := by
  obtain ⟨b, hb, hstart, hstop⟩ := hnumber
  obtain ⟨c, hc, hstart', hstop'⟩ := hnumber'
  rcases Nat.lt_trichotomy number number' with hlt | heq | hgt
  · have := h.stop_le hb hc hlt
    omega
  · exact heq
  · have := h.stop_le hc hb hgt
    omega

/-- The following instruction belongs to the same block or to the following one. -/
theorem Holds.eq_or_succ (h : Tiles blocks first last) {number number' : Nat}
    (hnumber : Holds blocks number index) (hnumber' : Holds blocks number' (index + 1)) :
    number' = number ∨ number' = number + 1 := by
  obtain ⟨b, hb, hstart, hstop⟩ := hnumber
  obtain ⟨c, hc, hstart', hstop'⟩ := hnumber'
  by_contra hne
  rcases Nat.lt_or_ge number' number with hlt | hge
  · have := h.stop_le hc hb hlt
    omega
  · have hlength := (List.getElem?_eq_some_iff.1 hc).1
    have hbetween : number + 1 < blocks.length := by omega
    have hd := List.getElem?_eq_getElem hbetween
    have hlow := h.stop_le hb hd (by omega)
    have hhigh := h.stop_le hd hc (by omega)
    have := (h.bounds hd).2.1
    omega

/-- Every index belongs to a block, and the table of numbers tells to which. -/
theorem Tiles.exists_number (h : Tiles blocks first last) (base : Nat) (hfirst : first ≤ index)
    (hlast : index < last) :
    ∃ number, ((blocks.zipIdx base).flatMap fun (b, number) =>
        List.replicate (b.stop - b.start) number)[index - first]? = some (base + number) ∧
      Holds blocks number index := by
  induction h generalizing base with
  | nil => omega
  | @cons b rest first last hstart hlt htiles ih =>
      simp only [List.zipIdx_cons, List.flatMap_cons]
      rcases Nat.lt_or_ge index b.stop with hin | hout
      · refine ⟨0, ?_, b, rfl, hstart ▸ hfirst, hin⟩
        rw [List.getElem?_append_left (by rw [List.length_replicate]; omega),
          List.getElem?_replicate_of_lt (by omega)]
        rfl
      · obtain ⟨number, hnumber, c, hc, hholds⟩ := ih (base + 1) hout hlast
        refine ⟨number + 1, ?_, c, hc, hholds⟩
        rw [List.getElem?_append_right (by rw [List.length_replicate]; omega), List.length_replicate,
          show index - first - (b.stop - b.start) = index - b.stop by omega, hnumber]
        congr 1
        omega

end Tiles

theorem numbers_eq_some_iff {code : List Instr} {index number : Nat} (hindex : index < code.length) :
    (numbers (blocksOf code)).toArray[index]? = some number ↔ Holds (blocksOf code) number index := by
  obtain ⟨found, hfound, hholds⟩ := (tiles_blocksOf code).exists_number 0 (Nat.zero_le index) hindex
  rw [List.getElem?_toArray, numbers, show index = index - 0 from rfl, hfound, Nat.zero_add, Option.some.injEq]
  exact ⟨fun h => h ▸ hholds, fun h => hholds.unique (tiles_blocksOf code) h⟩

section Links

variable {g : BlockGraph} {current successor number number' : Nat}

/-- The block into which a block falls. -/
def next? (g : BlockGraph) (number : Nat) : Option Nat :=
  (g.blocks[number]?).bind Block.next

/-- The block that falls into a block. -/
def prev? (g : BlockGraph) (number : Nat) : Option Nat :=
  (g.blocks[number]?).bind Block.prev

/-- A jump or switch leads from one block to another. -/
def Branches (g : BlockGraph) (number number' : Nat) : Prop :=
  ∃ b, g.blocks[number]? = some b ∧ number' ∈ b.branches

/-- Makes a block fall into another one. -/
def withNext (g : BlockGraph) (current successor : Nat) : BlockGraph where
  blocks := (g.blocks.modify current fun b => { b with next := some successor }).modify
    successor fun b => { b with prev := some current }

/-- Lets a block branch to another one. -/
def withBranch (g : BlockGraph) (current successor : Nat) : BlockGraph where
  blocks := g.blocks.modify current fun b =>
    if b.branches.contains successor then b else { b with branches := b.branches ++ [successor] }

theorem addEdge_eq {numbers : Array Nat} {source target : Nat} (hsource : numbers[source]? = some current)
    (htarget : numbers[target]? = some successor) :
    addEdge numbers g (source, target) =
      if current = successor then g
      else if source + 1 = target then g.withNext current successor
      else g.withBranch current successor := by
  simp only [addEdge, hsource, htarget]
  rfl

theorem getElem?_withNext (g : BlockGraph) (current successor number : Nat) :
    (g.withNext current successor).blocks[number]? = (g.blocks[number]?).map fun b => { b with
      next := if current = number then some successor else b.next
      prev := if successor = number then some current else b.prev } := by
  simp only [withNext, Array.getElem?_modify]
  cases g.blocks[number]? <;> split <;> split <;> rfl

theorem getElem?_withBranch (g : BlockGraph) (current successor number : Nat) :
    (g.withBranch current successor).blocks[number]? = (g.blocks[number]?).map fun b => { b with
      branches := if current = number ∧ successor ∉ b.branches then b.branches ++ [successor]
        else b.branches } := by
  simp only [withBranch, Array.getElem?_modify, List.contains_eq_mem]
  split
  · congr 1
    funext b
    by_cases hmem : successor ∈ b.branches <;> simp [*]
  · simp [*]

theorem next?_withNext (hcurrent : current < g.blocks.size) :
    (g.withNext current successor).next? number =
      if current = number then some successor else g.next? number := by
  rw [next?, next?, getElem?_withNext]
  by_cases heq : current = number
  · simp [← heq, hcurrent]
  · cases g.blocks[number]? <;> simp [heq]

theorem prev?_withNext (hsuccessor : successor < g.blocks.size) :
    (g.withNext current successor).prev? number =
      if successor = number then some current else g.prev? number := by
  rw [prev?, prev?, getElem?_withNext]
  by_cases heq : successor = number
  · simp [← heq, hsuccessor]
  · cases g.blocks[number]? <;> simp [heq]

@[simp] theorem next?_withBranch : (g.withBranch current successor).next? number = g.next? number := by
  rw [next?, next?, getElem?_withBranch]
  cases g.blocks[number]? <;> rfl

@[simp] theorem prev?_withBranch : (g.withBranch current successor).prev? number = g.prev? number := by
  rw [prev?, prev?, getElem?_withBranch]
  cases g.blocks[number]? <;> rfl

theorem Branches.withNext (h : g.Branches number number') (current successor : Nat) :
    (g.withNext current successor).Branches number number' := by
  obtain ⟨b, hb, hmem⟩ := h
  exact ⟨_, (getElem?_withNext ..).trans (congrArg _ hb), hmem⟩

theorem Branches.withBranch (h : g.Branches number number') (current successor : Nat) :
    (g.withBranch current successor).Branches number number' := by
  obtain ⟨b, hb, hmem⟩ := h
  refine ⟨_, (getElem?_withBranch ..).trans (congrArg _ hb), ?_⟩
  dsimp only
  split
  · exact List.mem_append_left _ hmem
  · exact hmem

theorem branches_withBranch (hcurrent : current < g.blocks.size) (successor : Nat) :
    (g.withBranch current successor).Branches current successor := by
  refine ⟨_, (getElem?_withBranch ..).trans (congrArg _ (Array.getElem?_eq_getElem hcurrent)), ?_⟩
  dsimp only
  split
  · exact List.mem_append_right _ List.mem_cons_self
  · next h =>
      rw [not_and, not_not] at h
      exact h rfl

/-- A graph over some blocks in which blocks fall into their neighbours only. -/
structure Chained (blocks : List Block) (g : BlockGraph) : Prop where
  bounds : ∀ number : Nat, (g.blocks[number]?).map Block.bounds = (blocks[number]?).map Block.bounds
  succ : ∀ number number', g.next? number = some number' → number' = number + 1
  link : ∀ number number', g.next? number = some number' ↔ g.prev? number' = some number

/-- An edge between two instructions of different blocks is part of the graph. -/
def Joins (blocks : List Block) (g : BlockGraph) (edge : Nat × Nat) : Prop :=
  ∀ number number', Holds blocks number edge.1 → Holds blocks number' edge.2 → number ≠ number' →
    if edge.1 + 1 = edge.2 then g.next? number = some number' else g.Branches number number'

section Edges

variable {blocks : List Block} {first last : Nat}

theorem Chained.lt_size (h : Chained blocks g) {index : Nat} (hholds : Holds blocks number index) :
    number < g.blocks.size := by
  obtain ⟨b, hb, _⟩ := hholds
  have hbounds := h.bounds number
  rw [hb, Option.map_some, Option.map_eq_some_iff] at hbounds
  obtain ⟨c, hc, _⟩ := hbounds
  exact (Array.getElem?_eq_some_iff.1 hc).1

theorem Chained.withNext (h : Chained blocks g) (hsize : current + 1 < g.blocks.size) :
    Chained blocks (g.withNext current (current + 1)) where
  bounds number := by
    rw [← h.bounds, getElem?_withNext]
    cases g.blocks[number]? <;> rfl
  succ number number' hnext := by
    rw [next?_withNext (by omega)] at hnext
    split at hnext
    · next heq => rw [← heq, Option.some.inj hnext]
    · exact h.succ number number' hnext
  link number number' := by
    rw [next?_withNext (by omega), prev?_withNext hsize]
    have hsucc := h.succ number number'
    have hlink := h.link number number'
    split <;> split <;> grind

theorem Chained.withBranch (h : Chained blocks g) (current successor : Nat) :
    Chained blocks (g.withBranch current successor) where
  bounds number := by
    rw [← h.bounds, getElem?_withBranch]
    cases g.blocks[number]? <;> rfl
  succ number number' hnext := h.succ number number' (next?_withBranch ▸ hnext)
  link number number' := by
    rw [next?_withBranch, prev?_withBranch]
    exact h.link number number'

/-- A graph over the blocks of some code with one more edge. -/
def withEdge (code : List Instr) (g : BlockGraph) (edge : Nat × Nat) : BlockGraph :=
  addEdge (numbers (blocksOf code)).toArray g edge

/-- What one edge adds to a graph: the graph stays chained, and it holds the edge besides those that it held. -/
theorem withEdge_spec {code : List Instr} {source target : Nat} (h : Chained (blocksOf code) g)
    (hsource : source < code.length) (htarget : target < code.length) :
    Chained (blocksOf code) (withEdge code g (source, target)) ∧
      Joins (blocksOf code) (withEdge code g (source, target)) (source, target) ∧
      ∀ edge, Joins (blocksOf code) g edge →
        Joins (blocksOf code) (withEdge code g (source, target)) edge := by
  have htiles := tiles_blocksOf code
  obtain ⟨current, -, hcurrent⟩ := htiles.exists_number 0 (Nat.zero_le source) hsource
  obtain ⟨successor, -, hsuccessor⟩ := htiles.exists_number 0 (Nat.zero_le target) htarget
  rw [withEdge,
    addEdge_eq ((numbers_eq_some_iff hsource).2 hcurrent) ((numbers_eq_some_iff htarget).2 hsuccessor)]
  have hself : ∀ number number', Holds (blocksOf code) number source →
      Holds (blocksOf code) number' target → number = current ∧ number' = successor :=
    fun _ _ hnumber hnumber' => ⟨hnumber.unique htiles hcurrent, hnumber'.unique htiles hsuccessor⟩
  split
  · next heq =>
      refine ⟨h, fun number number' hnumber hnumber' hne => ?_, fun _ hedge => hedge⟩
      obtain ⟨rfl, rfl⟩ := hself number number' hnumber hnumber'
      exact absurd heq hne
  · next hne =>
      split
      · next hfalls =>
          obtain rfl : successor = current + 1 :=
            (hcurrent.eq_or_succ htiles (hfalls ▸ hsuccessor)).resolve_left (Ne.symm hne)
          have hsize := h.lt_size hsuccessor
          refine ⟨h.withNext hsize, fun number number' hnumber hnumber' _ => ?_,
            fun edge hedge number number' hnumber hnumber' hother => ?_⟩
          · obtain ⟨rfl, rfl⟩ := hself number number' hnumber hnumber'
            simp [hfalls, next?_withNext (h.lt_size hcurrent)]
          · have hold := hedge number number' hnumber hnumber' hother
            split at hold
            · next hfall =>
                rw [if_pos hfall, next?_withNext (h.lt_size hcurrent)]
                split
                · next heq => rw [h.succ number number' hold, heq]
                · exact hold
            · next hjump =>
                rw [if_neg hjump]
                exact hold.withNext _ _
      · next hjumps =>
          refine ⟨h.withBranch current successor, fun number number' hnumber hnumber' _ => ?_,
            fun edge hedge number number' hnumber hnumber' hother => ?_⟩
          · obtain ⟨rfl, rfl⟩ := hself number number' hnumber hnumber'
            rw [if_neg hjumps]
            exact branches_withBranch (h.lt_size hcurrent) _
          · have hold := hedge number number' hnumber hnumber' hother
            split at hold
            · next hfall => rwa [if_pos hfall, next?_withBranch]
            · next hjump =>
                rw [if_neg hjump]
                exact hold.withBranch _ _

/-- What all edges add to a graph. -/
theorem foldl_withEdge_spec {code : List Instr} {edges : List (Nat × Nat)}
    (hedges : ∀ edge ∈ edges, edge.1 < code.length ∧ edge.2 < code.length)
    (h : Chained (blocksOf code) g) :
    Chained (blocksOf code) (edges.foldl (withEdge code) g) ∧
      ∀ edge, edge ∈ edges ∨ Joins (blocksOf code) g edge →
        Joins (blocksOf code) (edges.foldl (withEdge code) g) edge := by
  induction edges generalizing g with
  | nil => exact ⟨h, fun edge hedge => hedge.resolve_left List.not_mem_nil⟩
  | cons first rest ih =>
      obtain ⟨hsource, htarget⟩ := hedges first List.mem_cons_self
      obtain ⟨hchained, hfirst, hkeeps⟩ := withEdge_spec h hsource htarget
      obtain ⟨hall, hjoins⟩ := ih (fun edge hedge => hedges edge (List.mem_cons_of_mem _ hedge)) hchained
      refine ⟨hall, fun edge hedge => hjoins edge ?_⟩
      rcases hedge with hmem | hold
      · rcases List.mem_cons.1 hmem with rfl | hmem
        · exact .inr hfirst
        · exact .inl hmem
      · exact .inr (hkeeps edge hold)

theorem chained_blocksOf (code : List Instr) : Chained (blocksOf code) ⟨(blocksOf code).toArray⟩ := by
  have hnone : ∀ (number : Nat) (b : Block), (blocksOf code)[number]? = some b → b.next = none ∧ b.prev = none :=
    fun number b hb => (blocksOf_spec code).2 b (List.mem_of_getElem? hb)
  have hnext : ∀ number, next? ⟨(blocksOf code).toArray⟩ number = none := by
    intro number
    rw [next?, List.getElem?_toArray, Option.bind_eq_none_iff]
    exact fun b hb => (hnone number b hb).1
  have hprev : ∀ number, prev? ⟨(blocksOf code).toArray⟩ number = none := by
    intro number
    rw [prev?, List.getElem?_toArray, Option.bind_eq_none_iff]
    exact fun b hb => (hnone number b hb).2
  exact ⟨by simp, by simp [hnext], by simp [hnext, hprev]⟩

end Edges

end Links

end BlockGraph

end Unscramble
