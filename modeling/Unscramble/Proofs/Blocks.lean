/-
Code that is rewritten block by block: every instruction becomes a block of instructions, a label a block of
its own, and the blocks follow each other in the order of the instructions.  Labels are then found where
their blocks start, and a handler range covers all of a block or nothing of it.
-/
import Unscramble.Proofs.Flow
import Unscramble.Proofs.Machine

namespace Unscramble

/-- The index at which a block starts. -/
def blockStart (blocks : List (List Instr)) (index : Nat) : Nat :=
  (blocks.take index).flatten.length

/-- Every label becomes a block of its own, and no other block has a label in it. -/
def KeepsLabels (code : List Instr) (blocks : List (List Instr)) : Prop :=
  List.Forall₂ (fun instr block =>
    (∃ label, instr = .label label ∧ block = [.label label]) ∨
      (∀ label, instr ≠ .label label) ∧ ∀ label, .label label ∉ block) code blocks

variable {code : List Instr} {blocks : List (List Instr)} {block : List Instr} {index offset : Nat}

@[simp] theorem blockStart_zero (blocks : List (List Instr)) : blockStart blocks 0 = 0 := by
  simp [blockStart]

@[simp] theorem blockStart_cons_succ (block : List Instr) (blocks : List (List Instr))
    (index : Nat) : blockStart (block :: blocks) (index + 1) = block.length + blockStart blocks index := by
  simp [blockStart]

theorem blockStart_succ (h : blocks[index]? = some block) :
    blockStart blocks (index + 1) = blockStart blocks index + block.length := by
  simp [blockStart, List.take_add_one, h]

theorem blockStart_mono {first last : Nat} (h : first ≤ last) :
    blockStart blocks first ≤ blockStart blocks last := by
  obtain ⟨extra, rfl⟩ := Nat.exists_eq_add_of_le h
  simp [blockStart, List.take_add]

/-- An instruction of a block stands in the rewritten code where its block starts, plus its place in the
block. -/
theorem getElem?_flatten_blockStart (h : blocks[index]? = some block)
    (hoffset : offset < block.length) :
    blocks.flatten[blockStart blocks index + offset]? = block[offset]? := by
  induction blocks generalizing index with
  | nil => simp at h
  | cons first rest ih =>
      cases index with
      | zero =>
          simp only [List.getElem?_cons_zero, Option.some.injEq] at h
          subst h
          rw [List.flatten_cons, blockStart_zero, Nat.zero_add, List.getElem?_append_left hoffset]
      | succ index =>
          rw [List.getElem?_cons_succ] at h
          rw [List.flatten_cons, blockStart_cons_succ, Nat.add_assoc,
            List.getElem?_append_right (Nat.le_add_right _ _), Nat.add_sub_cancel_left]
          exact ih h

/-- A block lies before or after the start of another one as their indexes do. -/
theorem blockStart_le_iff (h : blocks[index]? = some block) (hoffset : offset < block.length)
    (other : Nat) : blockStart blocks other ≤ blockStart blocks index + offset ↔ other ≤ index := by
  constructor
  · intro hle
    by_contra hlt
    have hnext : blockStart blocks (index + 1) ≤ blockStart blocks other :=
      blockStart_mono (by omega)
    rw [blockStart_succ h] at hnext
    omega
  · intro hle
    have hstart : blockStart blocks other ≤ blockStart blocks index := blockStart_mono hle
    omega

theorem keepsLabels_of_getElem? (hlength : blocks.length = code.length)
    (h : ∀ (index : Nat) instr block, code[index]? = some instr → blocks[index]? = some block →
      (∃ label, instr = .label label ∧ block = [.label label]) ∨
        (∀ label, instr ≠ .label label) ∧ ∀ label, .label label ∉ block) : KeepsLabels code blocks := by
  refine List.forall₂_iff_get.2 ⟨hlength.symm, fun index hcode hblocks => ?_⟩
  exact h index _ _ (List.getElem?_eq_getElem hcode) (List.getElem?_eq_getElem hblocks)

/-- A label with its place, if that is what stands there. -/
def labelWithPlace? : Instr × Nat → Option (Label × Nat)
  | (.label l, place) => some (l, place)
  | _ => none

theorem labelPlaces_eq (code : List Instr) :
    labelPlaces code = (code.zipIdx.filterMap labelWithPlace?).reverse := by
  unfold labelPlaces
  congr 2

theorem filterMap_labelWithPlace?_eq_nil {first : Nat} (h : ∀ label, .label label ∉ block) :
    (block.zipIdx first).filterMap labelWithPlace? = [] := by
  rw [List.filterMap_eq_nil_iff]
  rintro ⟨instr, place⟩ hmem
  have hinstr := List.fst_mem_of_mem_zipIdx hmem
  cases instr with
  | label l => exact absurd hinstr (h l)
  | _ => rfl

/-- The labels of the rewritten code, in the order of their places. -/
theorem labels_flatten (h : KeepsLabels code blocks) (first : Nat) :
    (blocks.flatten.zipIdx first).filterMap labelWithPlace? =
      (code.zipIdx.filterMap labelWithPlace?).map fun pair =>
        (pair.1, first + blockStart blocks pair.2) := by
  induction h generalizing first with
  | nil => rfl
  | @cons instr block code blocks hblock _ ih =>
      have hshift : (code.zipIdx 1).filterMap labelWithPlace? =
          (code.zipIdx.filterMap labelWithPlace?).map fun pair => (pair.1, 1 + pair.2) := by
        rw [List.zipIdx_eq_map_add, List.filterMap_map, List.map_filterMap]
        apply List.filterMap_congr
        rintro ⟨instr, place⟩ _
        cases instr <;> rfl
      rw [List.flatten_cons, List.zipIdx_append, List.filterMap_append, ih, List.zipIdx_cons,
        List.filterMap_cons]
      rcases hblock with ⟨label, rfl, rfl⟩ | ⟨hinstr, hnone⟩
      · simp only [labelWithPlace?, hshift, List.zipIdx_cons, List.zipIdx_nil, List.filterMap_cons,
          List.filterMap_nil, List.map_cons, List.map_map, List.cons_append, List.nil_append,
          blockStart_zero, Nat.add_zero]
        congr 2
        funext pair
        simp only [Function.comp_apply, Nat.add_comm 1, blockStart_cons_succ]
        simp [Nat.add_assoc]
      · have hnot : labelWithPlace? (instr, 0) = none := by
          cases instr with
          | label l => exact absurd rfl (hinstr l)
          | _ => rfl
        simp only [hnot, hshift, filterMap_labelWithPlace?_eq_nil hnone, List.nil_append,
          List.map_map]
        congr 1
        funext pair
        simp only [Function.comp_apply, Nat.add_comm 1, blockStart_cons_succ]
        simp [Nat.add_assoc]

/-- A label is found where its block starts. -/
theorem place?_flatten (h : KeepsLabels code blocks) (label : Label) :
    place? (labelPlaces blocks.flatten) label =
      (place? (labelPlaces code) label).map (blockStart blocks) := by
  simp only [place?, labelPlaces_eq, labels_flatten h, Nat.zero_add]
  rw [← List.map_reverse, lookup_map_snd]

/-- An instruction at another place goes on to where its successors have moved, or fails as it did, if labels and the
following instruction have moved. -/
theorem Flow.successors_map {flow flow' : Flow} {moved : Nat → Nat} {place : Nat}
    (hlabels : ∀ label, place? flow'.places label = (place? flow.places label).map moved)
    (hfollowing : moved (index + 1) = place + 1) (instr : Instr) (effect : Effect) :
    flow'.successors place instr effect = (flow.successors index instr effect).map (List.map moved) := by
  have htarget : flow'.target = fun label => (flow.target label).map moved := by
    funext label
    rw [target, target, hlabels]
    cases place? flow.places label <;> rfl
  unfold successors
  split
  · next op label =>
      rw [htarget]
      dsimp only
      cases flow.target label with
      | error reason => rfl
      | ok found =>
          show Except.ok _ = Except.ok _
          split
          · rfl
          · rw [List.map_cons, hfollowing]
            rfl
  · rw [htarget, mapM_map]
  · rw [htarget, mapM_map]
  · split
    · rfl
    · rfl
    · show Except.ok _ = Except.ok [moved (index + 1)]
      rw [hfollowing]

namespace Machine

variable {σ : Type} {w w' : World σ} {m : MethodDecl} {exception : Value} {memory memory' : Memory σ}

/-- A handler starts at a label. -/
theorem handler?_eq_some (h : handler? w m index exception memory = some offset) :
    ∃ label, m.code[offset]? = some (.label label) := by
  obtain ⟨range, -, hrange⟩ := List.exists_of_findSome?_eq_some h
  obtain ⟨start, -, hrange⟩ := Option.bind_eq_some_iff.1 hrange
  obtain ⟨stop, -, hrange⟩ := Option.bind_eq_some_iff.1 hrange
  split at hrange
  · exact ⟨_, place?_labelPlaces hrange⟩
  · cases hrange

/-- An exception in a block is handled where the handler of its instruction went. -/
theorem handler?_flatten (h : KeepsLabels m.code blocks) (hblock : blocks[index]? = some block)
    (hoffset : offset < block.length)
    (hcatches : ∀ type, w'.catches type exception memory' = w.catches type exception memory) :
    handler? w' { m with code := blocks.flatten } (blockStart blocks index + offset) exception
      memory' = (handler? w m index exception memory).map (blockStart blocks) := by
  simp only [handler?, place?_flatten h, List.map_findSome?]
  congr 1
  funext range
  simp only [Function.comp_apply]
  cases place? (labelPlaces m.code) range.start with
  | none => rfl
  | some start =>
      cases place? (labelPlaces m.code) range.stop with
      | none => rfl
      | some stop =>
          have hstart := blockStart_le_iff hblock hoffset start
          have hstop : blockStart blocks index + offset < blockStart blocks stop ↔ index < stop := by
            rw [← Nat.not_le, ← Nat.not_le, blockStart_le_iff hblock hoffset]
          simp only [Option.map_some, Option.bind_eq_bind, Option.bind_some, hstart, hstop, hcatches]
          split <;> rfl

/-- The configuration with its instruction at another place. -/
def move (place : Nat → Nat) : Config σ → Config σ
  | .running pc s => .running (place pc) s
  | ended => ended

theorem move_of_ended {place : Nat → Nat} {c : Config σ} (h : c.pc? = none) : move place c = c := by
  cases c with
  | running => cases h
  | _ => rfl

theorem pc?_move {place : Nat → Nat} (c : Config σ) : (move place c).pc? = c.pc?.map place := by
  cases c <;> rfl

/-- An instruction that is a block of its own does the same, and goes on to where its successors went. -/
theorem step_flatten {instr : Instr} (h : KeepsLabels m.code blocks) (hinstr : m.code[index]? = some instr)
    (hblock : blocks[index]? = some [instr]) (s : Store σ) :
    step w { m with code := blocks.flatten } (.running (blockStart blocks index) s) =
      move (blockStart blocks) (step w m (.running index s)) := by
  have hsame : blocks.flatten[blockStart blocks index]? = some instr :=
    getElem?_flatten_blockStart hblock Nat.zero_lt_one
  rw [step, step, hsame, hinstr]
  dsimp only
  cases exec w instr s with
  | next s' =>
      rw [proceed, proceed, move, blockStart_succ hblock]
      rfl
  | jump target s' =>
      rw [proceed, proceed, place?_flatten h]
      cases place? (labelPlaces m.code) target <;> rfl
  | leave => rfl
  | throw exception memory =>
      have hhandler := handler?_flatten (w := w) h hblock Nat.zero_lt_one
        (fun _ => rfl : ∀ type, w.catches type exception memory = w.catches type exception memory)
      rw [Nat.add_zero] at hhandler
      rw [proceed, proceed, hhandler]
      split
      · cases handler? w m index exception memory <;> rfl
      · rfl
  | stuck => rfl

end Machine

end Unscramble
