/-
Encoding what was read back.  The bytes of a body depend on its outline only: the layout on the instructions without
their labels, the distances and tables on the positions of labels and lines.  Empty handler ranges and line markers
behind the last instruction write nothing.  So a class that was written and read back is written to the same bytes.
-/
import Unscramble.Proofs.ClassReading
import Unscramble.Proofs.Repeating

namespace Unscramble.ClassFile

open PoolBuilder

namespace Code

variable {α : Type} {offset stop : Nat} {i i' : Instr} {code code' : List Instr} {placed placed' : List (Instr × Nat)}

section Places

/-- Instructions and markers in a row, where only instructions take room. -/
inductive InRow : Nat → List Instr → List (Instr × Nat) → Nat → Prop
  | nil {offset : Nat} : InRow offset [] [] offset
  | marker {offset stop : Nat} {i : Instr} {rest : List Instr} {placed : List (Instr × Nat)}
      (hmarker : i.isMarker = true) (hrest : InRow offset rest placed stop) :
      InRow offset (i :: rest) ((i, offset) :: placed) stop
  | instr {offset size stop : Nat} {i : Instr} {rest : List Instr} {placed : List (Instr × Nat)}
      (hreal : i.isMarker = false) (hrest : InRow (offset + size) rest placed stop) :
      InRow offset (i :: rest) ((i, offset) :: placed) stop

/-- The offset of a position: that of the instruction there, or the end of the code. -/
def offsetAt (placed : List (Instr × Nat)) (stop position : Nat) : Nat :=
  (starts placed).getD position stop

theorem offsetAt_cons_marker (h : i.isMarker = true) (position : Nat) :
    offsetAt ((i, offset) :: placed) stop position = offsetAt placed stop position := by
  rw [offsetAt, starts_cons_marker h, offsetAt]

theorem offsetAt_zero (h : i.isMarker = false) : offsetAt ((i, offset) :: placed) stop 0 = offset := by
  rw [offsetAt, starts_cons_instr h, List.getD_cons_zero]

theorem offsetAt_succ (h : i.isMarker = false) (position : Nat) :
    offsetAt ((i, offset) :: placed) stop (position + 1) = offsetAt placed stop position := by
  rw [offsetAt, starts_cons_instr h, List.getD_cons_succ, offsetAt]

theorem offsetAt_of_le {position : Nat} (h : (starts placed).length ≤ position) :
    offsetAt placed stop position = stop := by
  rw [offsetAt, List.getD_eq_getElem?_getD, List.getElem?_eq_none h, Option.getD_none]

namespace InRow

theorem offsetAt_first (h : InRow offset code placed stop) : offsetAt placed stop 0 = offset := by
  induction h with
  | nil => rfl
  | marker hmarker _ ih => rw [offsetAt_cons_marker hmarker, ih]
  | instr hreal _ _ => exact offsetAt_zero hreal

theorem le_offsetAt (h : InRow offset code placed stop) (position : Nat) : offset ≤ offsetAt placed stop position := by
  induction h generalizing position with
  | nil => simp [offsetAt, starts]
  | marker hmarker _ ih =>
      rw [offsetAt_cons_marker hmarker]
      exact ih position
  | instr hreal _ ih =>
      cases position with
      | zero => rw [offsetAt_zero hreal]
      | succ position =>
          rw [offsetAt_succ hreal]
          exact Nat.le_trans (Nat.le_add_right _ _) (ih position)

theorem offsetAt_le (h : InRow offset code placed stop) {position later : Nat} (hle : position ≤ later) :
    offsetAt placed stop position ≤ offsetAt placed stop later := by
  induction h generalizing position later with
  | nil => simp [offsetAt, starts]
  | marker hmarker _ ih =>
      rw [offsetAt_cons_marker hmarker, offsetAt_cons_marker hmarker]
      exact ih hle
  | instr hreal hrest ih =>
      cases position with
      | zero =>
          rw [offsetAt_zero hreal]
          exact (InRow.instr hreal hrest).le_offsetAt later
      | succ position =>
          obtain ⟨later, rfl⟩ := Nat.exists_eq_add_of_le' hle
          rw [← Nat.add_assoc, offsetAt_succ hreal, offsetAt_succ hreal]
          exact ih (Nat.le_add_left position later)

/-- What is picked from a body has the offset of its position. -/
theorem picked_eq (h : InRow offset code placed stop) (pick : Instr → Option α) (front : Nat) {place : Nat → Nat}
    (hplace : ∀ position, place (front + position) = offsetAt placed stop position) :
    placed.filterMap (fun p => (pick p.1).map (p.2, ·)) =
      (positions pick front code).map fun q => (place q.1, q.2) := by
  induction h generalizing front with
  | nil => rfl
  | @marker offset stop i rest placed hmarker hrest ih =>
      have hfirst : place front = offset := by
        rw [← Nat.add_zero front, hplace, offsetAt_cons_marker hmarker, hrest.offsetAt_first]
      have hlater := ih front fun position => by
        rw [hplace, offsetAt_cons_marker hmarker]
      rw [positions, if_pos hmarker, List.map_append, ← hlater, List.filterMap_cons]
      cases pick i <;> simp [hfirst]
  | @instr offset size stop i rest placed hreal hrest ih =>
      have hfirst : place front = offset := by
        rw [← Nat.add_zero front, hplace, offsetAt_zero hreal]
      have hlater := ih (front + 1) fun position => by
        rw [Nat.add_assoc, Nat.add_comm 1, hplace, offsetAt_succ hreal]
      rw [positions, if_neg (by rw [hreal]; decide), List.map_append, ← hlater, List.filterMap_cons]
      cases pick i <;> simp [hfirst]

theorem picked_offsetAt (h : InRow 0 code placed stop) (pick : Instr → Option α) :
    placed.filterMap (fun p => (pick p.1).map (p.2, ·)) =
      (positions pick 0 code).map fun q => (offsetAt placed stop q.1, q.2) :=
  h.picked_eq pick 0 fun position => by rw [Nat.zero_add]

/-- The offset of a label is that of its position. -/
theorem lookup_eq (h : InRow 0 code placed stop) (label : Label) :
    (labelOffsets placed).lookup label = (position? code label).map (offsetAt placed stop) := by
  have hlabels : labelOffsets placed = (labelPositions code).map fun p => (p.1, offsetAt placed stop p.2) := by
    rw [labelOffsets_eq, labelPositions, List.map_reverse, List.map_map]
    congr 1
    have hswap := congrArg (List.map Prod.swap) (h.picked_offsetAt Instr.label?)
    rw [List.map_filterMap, List.map_map] at hswap
    simpa [Function.comp_def] using hswap
  rw [hlabels, position?, lookup_map_snd]

theorem length_starts (h : InRow offset code placed stop) :
    (starts placed).length = (code.filter (!·.isMarker)).length := by
  induction h with
  | nil => rfl
  | marker hmarker _ ih => rw [starts_cons_marker hmarker, ih, List.filter_cons_of_neg (by simp [hmarker])]
  | instr hreal _ ih =>
      rw [starts_cons_instr hreal, List.filter_cons_of_pos (by simp [hreal]), List.length_cons, List.length_cons, ih]

/-- The written line markers by positions. -/
theorem writtenLines_eq (h : InRow 0 code placed stop) : writtenLines placed stop =
    ((positions Instr.line? 0 code).map fun q => (offsetAt placed stop q.1, q.2)).filter (·.1 < stop) := by
  rw [← h.picked_offsetAt, writtenLines, List.filter_filterMap]
  refine List.filterMap_congr fun p _ => ?_
  cases p.1.line? <;> simp [Option.filter]

end InRow

end Places

section Layout

/-- The layout of code behind an offset. -/
def layoutFrom : Nat → List Instr → Encoder (List (Instr × Nat) × Nat)
  | offset, [] => pure ([], offset)
  | offset, i :: rest => do
      let size ← encodedSize offset i
      let (placed, stop) ← layoutFrom (offset + size) rest
      pure ((i, offset) :: placed, stop)

theorem foldlM_layout_eq (code : List Instr) (offset : Nat) (done : List (Instr × Nat)) :
    code.foldlM (fun (placed, offset) instr => do
        let size ← encodedSize offset instr
        pure ((instr, offset) :: placed, offset + size)) (done, offset) =
      (do
        let (placed, stop) ← layoutFrom offset code
        pure (placed.reverse ++ done, stop) : Encoder (List (Instr × Nat) × Nat)) := by
  induction code generalizing offset done with
  | nil => simp [layoutFrom]
  | cons i rest ih =>
      simp only [List.foldlM_cons, layoutFrom, bind_assoc, pure_bind, ih, List.reverse_cons, List.append_assoc,
        List.singleton_append]

theorem layout_eq (code : List Instr) : layout code = layoutFrom 0 code := by
  unfold layout
  rw [foldlM_layout_eq]
  simp

variable {rel : Instr → Instr → Prop}

/-- Two layouts in which related instructions have the same offsets. -/
structure SameLayout (rel : Instr → Instr → Prop) (offset : Nat) (code code' : List Instr)
    (result result' : List (Instr × Nat) × Nat) : Prop where
  inRow : InRow offset code result.1 result.2
  inRow' : InRow offset code' result'.1 result'.2
  stop : result'.2 = result.2
  aligned : Aligned (fun p => p.1.isMarker = true) (fun p => p.1.isMarker = true)
    (fun p p' => rel p.1 p'.1 ∧ p'.2 = p.2) result.1 result'.1

theorem encodedSize_blank (offset : Nat) (i : Instr) : encodedSize offset i.blank = encodedSize offset i := by
  cases i <;> simp [Instr.blank, Instr.relabel, encodedSize]

/-- A marker takes no room. -/
theorem layoutFrom_marker (h : i.isMarker = true) (offset : Nat) (rest : List Instr) :
    layoutFrom offset (i :: rest) = (do
      let (placed, stop) ← layoutFrom offset rest
      pure ((i, offset) :: placed, stop)) := by
  have hsize : encodedSize offset i = pure 0 := by
    cases i <;> first | rfl | cases h
  rw [layoutFrom, hsize, pure_bind]
  rfl

/-- Code with the same instructions, labels apart, has the same layout. -/
theorem repeats_layoutFrom (hreal : ∀ i i', rel i i' → i.isMarker = false ∧ i'.blank = i.blank)
    (h : Aligned (·.isMarker = true) (·.isMarker = true) rel code code') (offset : Nat) :
    Repeats (layoutFrom offset code) (layoutFrom offset code') (SameLayout rel offset code code') := by
  induction h generalizing offset with
  | nil => exact .pure ⟨.nil, .nil, rfl, .nil⟩
  | left hmarker _ ih =>
      rw [layoutFrom_marker hmarker]
      exact (ih offset).bind_left fun _ _ h =>
        .pure ⟨.marker hmarker h.inRow, h.inRow', h.stop, .left hmarker h.aligned⟩
  | right hmarker _ ih =>
      rw [layoutFrom_marker hmarker]
      exact (ih offset).bind_right fun _ _ h =>
        .pure ⟨h.inRow, .marker hmarker h.inRow', h.stop, .right hmarker h.aligned⟩
  | @both i i' rest rest' hrel _ ih =>
      obtain ⟨hi, hblank⟩ := hreal i i' hrel
      have hi' : i'.isMarker = false := by
        rw [← Instr.isMarker_relabel (fun _ => ⟨0⟩), ← Instr.blank, hblank, Instr.blank, Instr.isMarker_relabel, hi]
      have hsize : encodedSize offset i' = encodedSize offset i := by
        rw [← encodedSize_blank, hblank, encodedSize_blank]
      rw [layoutFrom, layoutFrom, hsize]
      refine .after _ fun size => (ih (offset + size)).bind fun _ _ h => ?_
      exact .pure ⟨.instr hi h.inRow, .instr hi' h.inRow', h.stop, .both ⟨hrel, rfl⟩ h.aligned⟩

theorem starts_eq_of_aligned (h : Aligned (fun p => p.1.isMarker = true) (fun p => p.1.isMarker = true)
    (fun (p p' : Instr × Nat) => (p.1.isMarker = false ∧ p'.1.isMarker = false) ∧ p'.2 = p.2) placed placed') :
    starts placed' = starts placed := by
  induction h with
  | nil => rfl
  | @left p later _ hmarker _ ih => exact ih.trans (starts_cons_marker hmarker later).symm
  | @right p _ later hmarker _ ih => exact (starts_cons_marker hmarker later).trans ih
  | @both p p' l l' hrel _ ih =>
      obtain ⟨i, offset⟩ := p
      obtain ⟨i', offset'⟩ := p'
      obtain ⟨⟨hi, hi'⟩, rfl⟩ := hrel
      rw [starts_cons_instr hi, starts_cons_instr hi', ih]

theorem SameLayout.offsetAt_eq {result result' : List (Instr × Nat) × Nat}
    (h : SameLayout rel offset code code' result result')
    (hreal : ∀ i i', rel i i' → i.isMarker = false ∧ i'.isMarker = false) :
    offsetAt result'.1 result'.2 = offsetAt result.1 result.2 := by
  have hsame := starts_eq_of_aligned (h.aligned.imp fun p p' hrel => ⟨hreal _ _ hrel.1, hrel.2⟩)
  funext position
  rw [offsetAt, hsame, h.stop, offsetAt]

end Layout

section Instructions

variable {offsets offsets' : List (Label × Nat)} {label label' : Label}

theorem eq_of_blank_eq (h : i'.blank = i.blank) (htargets : i.targets = []) : i' = i := by
  cases i <;> cases i' <;> simp_all [Instr.blank, Instr.relabel, Instr.targets]

theorem offsetOf_again (h : offsets'.lookup label' = offsets.lookup label) {o : Nat}
    (ho : offsetOf offsets label = .ok o) : offsetOf offsets' label' = .ok o := by
  rw [offsetOf_eq_ok ho] at h
  rw [offsetOf, h]

theorem distance_again (h : offsets'.lookup label' = offsets.lookup label) {d : Int}
    (hd : distance offsets offset label = .ok d) : distance offsets' offset label' = .ok d := by
  obtain ⟨place, hplace, heq⟩ := map_eq_ok.1 hd
  obtain ⟨o, ho, hcast⟩ := bind_eq_ok.1 hplace
  exact map_eq_ok.2 ⟨place, bind_eq_ok.2 ⟨o, offsetOf_again h ho, hcast⟩, heq⟩

theorem shortDistance_again (h : offsets'.lookup label' = offsets.lookup label) {block : Bytes}
    (hblock : shortDistance offsets offset label = .ok block) : shortDistance offsets' offset label' = .ok block := by
  obtain ⟨d, hd, hrest⟩ := bind_eq_ok.1 hblock
  exact bind_eq_ok.2 ⟨d, distance_again h hd, hrest⟩

theorem longDistance_again (h : offsets'.lookup label' = offsets.lookup label) {block : Bytes}
    (hblock : longDistance offsets offset label = .ok block) : longDistance offsets' offset label' = .ok block := by
  obtain ⟨d, hd, hrest⟩ := bind_eq_ok.1 hblock
  exact bind_eq_ok.2 ⟨d, distance_again h hd, hrest⟩

theorem repeats_longDistance (h : offsets'.lookup label' = offsets.lookup label) :
    Repeats (liftM (longDistance offsets offset label)) (liftM (longDistance offsets' offset label')) Eq :=
  .lift fun _ => longDistance_again h

/-- An instruction is written again where its label operands have the same offsets. -/
theorem repeats_instr (hblank : i'.blank = i.blank)
    (htargets : i'.targets.map (offsets'.lookup ·) = i.targets.map (offsets.lookup ·)) (offset : Nat) :
    Repeats (encodeInstr offsets offset i) (encodeInstr offsets' offset i') Eq := by
  have hlast : ∀ {targets targets' : List Label} {fallback fallback' : Label},
      (targets' ++ [fallback']).map (offsets'.lookup ·) = (targets ++ [fallback]).map (offsets.lookup ·) →
        targets'.map (offsets'.lookup ·) = targets.map (offsets.lookup ·) ∧
          offsets'.lookup fallback' = offsets.lookup fallback := by
    intro targets targets' fallback fallback' h
    rw [List.map_append, List.map_append] at h
    obtain ⟨htargets, hfallback⟩ := List.append_inj' h rfl
    exact ⟨htargets, List.singleton_inj.1 hfallback⟩
  by_cases hnone : i.targets = []
  · obtain rfl := eq_of_blank_eq hblank hnone
    cases i' with
    | jump | tableSwitch | lookupSwitch => simp [Instr.targets] at hnone
    | _ => exact .refl _
  · cases i with
    | jump op target =>
        cases i' with
        | jump op' target' =>
            obtain rfl : op' = op := (Instr.jump.inj hblank).1
            refine (Repeats.lift fun _ => shortDistance_again (List.singleton_inj.1 htargets)).bind ?_
            rintro block _ rfl
            exact .refl _
        | _ => cases hblank
    | tableSwitch low high fallback targets =>
        cases i' with
        | tableSwitch low' high' fallback' targets' =>
            obtain ⟨rfl, rfl, -⟩ := Instr.tableSwitch.inj hblank
            obtain ⟨hcases, hfallback⟩ := hlast htargets
            refine (repeats_longDistance hfallback).bind ?_
            rintro head _ rfl
            refine (Repeats.mapM (forall₂_of_map_eq hcases) fun _ _ => repeats_longDistance).bind ?_
            rintro blocks _ rfl
            exact .refl _
        | _ => cases hblank
    | lookupSwitch fallback keys targets =>
        cases i' with
        | lookupSwitch fallback' keys' targets' =>
            obtain ⟨-, rfl, -⟩ := Instr.lookupSwitch.inj hblank
            obtain ⟨hcases, hfallback⟩ := hlast htargets
            have hpairs : (keys'.zip targets').map (Prod.map id (offsets'.lookup ·)) =
                (keys'.zip targets).map (Prod.map id (offsets.lookup ·)) := by
              rw [← List.zip_map_right, ← List.zip_map_right, hcases]
            refine (repeats_longDistance hfallback).bind ?_
            rintro head _ rfl
            refine (Repeats.mapM (forall₂_of_map_eq hpairs) ?_).bind ?_
            · rintro ⟨key, target⟩ ⟨key', target'⟩ hpair
              obtain ⟨rfl, hplace⟩ := Prod.mk.inj hpair
              refine (repeats_longDistance hplace).bind ?_
              rintro block _ rfl
              exact .refl _
            · rintro blocks _ rfl
              exact .refl _
        | _ => cases hblank
    | _ => exact absurd rfl hnone

end Instructions

section Bodies

variable {offsets offsets' : List (Label × Nat)} {tries tries' : List TryBlock} {block block' : TryBlock}

/-- An instruction and the one that was read back for it: the same, with the same positions as operands. -/
def Corresponds (code code' : List Instr) (i i' : Instr) : Prop :=
  (!i.isMarker) = true ∧ (!i'.isMarker) = true ∧
    (i'.blank, i'.targets.map (position? code')) = (i.blank, i.targets.map (position? code))

theorem aligned_of_outline (h : (outline code' tries').instrs = (outline code tries).instrs) :
    Aligned (·.isMarker = true) (·.isMarker = true) (Corresponds code code') code code' :=
  .of_filter (fun _ => by simp) (fun _ => by simp) (forall₂_of_map_eq h)

theorem repeats_layout (h : Aligned (·.isMarker = true) (·.isMarker = true) (Corresponds code code') code code') :
    Repeats (layout code) (layout code') (SameLayout (Corresponds code code') 0 code code') := by
  rw [layout_eq, layout_eq]
  refine repeats_layoutFrom ?_ h 0
  rintro i i' ⟨hi, -, hsame⟩
  exact ⟨by simpa using hi, (Prod.mk.inj hsame).1⟩

/-- Labels at one position have one offset. -/
theorem SameLayout.lookup_eq {result result' : List (Instr × Nat) × Nat}
    (h : SameLayout (Corresponds code code') 0 code code' result result') {label label' : Label}
    (hposition : position? code' label' = position? code label) :
    (labelOffsets result'.1).lookup label' = (labelOffsets result.1).lookup label := by
  have hplaces := h.offsetAt_eq fun i i' hsame => ⟨by simpa using hsame.1, by simpa using hsame.2.1⟩
  rw [h.inRow.lookup_eq, h.inRow'.lookup_eq, hposition, hplaces]

/-- The bytes of the instructions. -/
theorem repeats_instrs {result result' : List (Instr × Nat) × Nat}
    (h : SameLayout (Corresponds code code') 0 code code' result result') :
    Repeats
      (result.1.zipIdx.mapM fun ((instr, offset), index) =>
        fun b => (encodeInstr (labelOffsets result.1) offset instr b).mapError (.instr index instr))
      (result'.1.zipIdx.mapM fun ((instr, offset), index) =>
        fun b => (encodeInstr (labelOffsets result'.1) offset instr b).mapError (.instr index instr))
      fun blocks blocks' => blocks'.flatten = blocks.flatten := by
  have hmarker : ∀ (offsets : List (Label × Nat)) (offset : Nat) (i : Instr) (wrap : EncodeFault → EncodeFault),
      i.isMarker = true → (fun b => (encodeInstr offsets offset i b).mapError wrap) = (pure [] : Encoder Bytes) := by
    intro offsets offset i wrap hi
    cases i <;> first | rfl | cases hi
  simp only [← List.flatMap_id]
  refine Repeats.mapM_aligned (h.aligned.zipIdx 0 0) id id ?_ ?_ ?_
  · rintro ⟨⟨i, offset⟩, index⟩ hi
    dsimp only
    rw [hmarker _ _ _ _ hi]
    exact .pure rfl
  · rintro ⟨⟨i, offset⟩, index⟩ hi
    dsimp only
    rw [hmarker _ _ _ _ hi]
    exact .pure rfl
  · rintro ⟨⟨i, offset⟩, index⟩ ⟨⟨i', offset'⟩, index'⟩ ⟨⟨-, -, hsame⟩, rfl⟩
    obtain ⟨hblank, htargets⟩ := Prod.mk.inj hsame
    have hplaces : i'.targets.map ((labelOffsets result'.1).lookup ·) =
        i.targets.map ((labelOffsets result.1).lookup ·) := by
      rw [← List.forall₂_eq_eq_eq, List.forall₂_map_left_iff, List.forall₂_map_right_iff]
      exact (forall₂_of_map_eq htargets).flip.imp fun _ _ => h.lookup_eq
    refine Repeats.mapError ((repeats_instr hblank hplaces offset').imp ?_)
    exact fun _ _ => Eq.symm

theorem repeats_offsetOf {label label' : Label} (h : offsets'.lookup label' = offsets.lookup label) :
    Repeats (liftM (offsetOf offsets label)) (liftM (offsetOf offsets' label')) Eq :=
  .lift fun _ => offsetOf_again h

/-- A handler range is written again where its labels have the same offsets. -/
theorem repeats_try (hstart : offsets'.lookup block'.start = offsets.lookup block.start)
    (hstop : offsets'.lookup block'.stop = offsets.lookup block.stop)
    (hhandler : offsets'.lookup block'.handler = offsets.lookup block.handler)
    (hcatch : block'.catchType = block.catchType) :
    Repeats (encodeTry offsets block) (encodeTry offsets' block') Eq := by
  unfold encodeTry
  rw [hcatch]
  refine (repeats_offsetOf hstart).bind ?_
  rintro start _ rfl
  refine (repeats_offsetOf hstop).bind ?_
  rintro stop _ rfl
  split
  · exact .refl _
  · refine (repeats_offsetOf hhandler).bind ?_
    rintro handler _ rfl
    exact .refl _

/-- An empty handler range writes nothing. -/
theorem repeats_emptyRange (hrow : InRow 0 code placed stop) (h : (rangeOutline code block).isProper = false) :
    Repeats (encodeTry (labelOffsets placed) block) (pure ()) fun result _ => result.toList = [] := by
  refine Repeats.lift_left fun start hstart => Repeats.lift_left fun last hlast => ?_
  obtain ⟨first, hfirst, rfl⟩ := Option.map_eq_some_iff.1 ((hrow.lookup_eq _).symm.trans (offsetOf_eq_ok hstart))
  obtain ⟨behind, hbehind, rfl⟩ := Option.map_eq_some_iff.1 ((hrow.lookup_eq _).symm.trans (offsetOf_eq_ok hlast))
  have hempty : behind ≤ first := by
    rw [rangeOutline, RangeOutline.isProper, hfirst, hbehind] at h
    exact Nat.not_lt.1 (of_decide_eq_false h)
  rw [if_pos (hrow.offsetAt_le hempty)]
  exact .pure rfl

theorem aligned_tries (h : (outline code' tries').ranges = (outline code tries).ranges.filter RangeOutline.isProper) :
    Aligned (fun block => (rangeOutline code block).isProper = false) (fun _ => False)
      (fun block block' => rangeOutline code' block' = rangeOutline code block) tries tries' := by
  have hranges : (tries'.filter fun _ => true).map (rangeOutline code') =
      (tries.filter (RangeOutline.isProper ∘ rangeOutline code)).map (rangeOutline code) := by
    rw [List.filter_true, ← List.filter_map]
    exact h
  refine (Aligned.of_filter (fun _ => id) nofun (forall₂_of_map_eq hranges)).imp ?_
  exact fun _ _ hrel => hrel.2.2

/-- The bytes of the handler ranges. -/
theorem repeats_tries {result result' : List (Instr × Nat) × Nat}
    (h : SameLayout (Corresponds code code') 0 code code' result result')
    (hranges : (outline code' tries').ranges = (outline code tries).ranges.filter RangeOutline.isProper) :
    Repeats (tries.mapM (encodeTry (labelOffsets result.1))) (tries'.mapM (encodeTry (labelOffsets result'.1)))
      fun written written' => written'.filterMap id = written.filterMap id := by
  simp only [List.filterMap_eq_flatMap_toList, id_eq]
  refine Repeats.mapM_aligned (aligned_tries hranges) Option.toList Option.toList ?_ (fun _ => False.elim) ?_
  · exact fun block hempty => repeats_emptyRange h.inRow hempty
  · intro block block' hsame
    obtain ⟨hstart, hstop, hhandler, hcatch⟩ := RangeOutline.mk.inj hsame
    refine (repeats_try (h.lookup_eq hstart) (h.lookup_eq hstop) (h.lookup_eq hhandler) hcatch).imp ?_
    rintro written _ rfl
    rfl

/-- The line markers behind the last instruction are not written. -/
theorem encodeLines_again {result result' : List (Instr × Nat) × Nat}
    (h : SameLayout (Corresponds code code') 0 code code' result result')
    (hlines : (outline code' tries').lines =
      (outline code tries).lines.filter fun q => q.1 < (outline code tries).instrs.length) :
    encodeLines result'.1 result'.2 = encodeLines result.1 result.2 := by
  have hpositions : positions Instr.line? 0 code' =
      (positions Instr.line? 0 code).filter fun q => q.1 < (starts result.1).length := by
    rw [h.inRow.length_starts, ← List.length_map (fun i => (i.blank, i.targets.map (position? code)))]
    exact hlines
  have hsame : writtenLines result'.1 result'.2 = writtenLines result.1 result.2 := by
    have hplaces := h.offsetAt_eq fun i i' hsame => ⟨by simpa using hsame.1, by simpa using hsame.2.1⟩
    rw [h.inRow.writtenLines_eq, h.inRow'.writtenLines_eq, hpositions, hplaces, h.stop, List.filter_map,
      List.filter_map, List.filter_filter]
    congr 1
    refine List.filter_congr fun q _ => ?_
    -- a position behind all instructions is the end of the code
    by_cases hbehind : q.1 < (starts result.1).length
    · simp [hbehind]
    · simp [hbehind, offsetAt_of_le (Nat.le_of_not_lt hbehind)]
  rw [encodeLines_eq, encodeLines_eq, hsame]

/-- A body that was read back is written again. -/
theorem repeats_body {m m' : MethodDecl} (hstack : m'.maxStack = m.maxStack) (hlocals : m'.maxLocals = m.maxLocals)
    (houtline : outline m'.code m'.tries = (outline m.code m.tries).trimmed) : Repeats (encode m) (encode m') Eq := by
  have hinstrs : (outline m'.code m'.tries).instrs = (outline m.code m.tries).instrs := by
    rw [houtline]
    rfl
  have hlines := congrArg Outline.lines houtline
  have hranges := congrArg Outline.ranges houtline
  refine (repeats_layout (aligned_of_outline hinstrs)).bind ?_
  rintro ⟨placed, length⟩ ⟨placed', length'⟩ hsame
  obtain rfl : length' = length := hsame.stop
  have hwritten : encodeLines placed' length' = encodeLines placed length' := encodeLines_again hsame hlines
  dsimp only
  rw [hwritten, hstack, hlocals]
  split
  · exact .throw_bind
  · refine (repeats_instrs hsame).bind fun blocks blocks' hblocks => ?_
    refine (repeats_tries hsame hranges).bind fun results results' hresults => ?_
    rw [hblocks, hresults]
    exact .refl _

end Bodies

end Code

section Classes

variable {m m' : MethodDecl} {c c' : ClassDecl}

/-- No body is written without code. -/
theorem encode_of_noCode (h : m.hasCode = false) (b : PoolBuilder) :
    (Code.encode m).run b = .error (.codeLength 0) := by
  have hcode : m.code = [] := by simpa [MethodDecl.hasCode] using h
  rw [Code.encode, hcode]
  rfl

theorem encodeCodePart_eq (h : m.hasCode = true) : encodeCodePart m = (do
    let attrName ← utf8 "Code"
    let body ← Code.encode m
    pure [← attributeBytes attrName body]) := by
  rw [encodeCodePart, if_pos h]

theorem encodeCodePart_of_noCode (h : m.hasCode = false) : encodeCodePart m = pure [] := by
  rw [encodeCodePart, if_neg (by rw [h]; decide)]

theorem repeats_codePart (h : m.Restored m') : Repeats (encodeCodePart m) (encodeCodePart m') Eq := by
  cases hcode : m.hasCode with
  | false =>
      rw [encodeCodePart_of_noCode hcode, encodeCodePart_of_noCode (h.noBody hcode)]
      exact .refl _
  | true =>
      obtain ⟨hstack, hlocals, houtline⟩ := h.body hcode
      have hbody := Code.repeats_body hstack hlocals houtline
      rw [encodeCodePart_eq hcode]
      cases hcode' : m'.hasCode with
      | true =>
          rw [encodeCodePart_eq hcode']
          refine .after _ fun name => hbody.bind ?_
          rintro body _ rfl
          exact .refl _
      | false =>
          -- a body without instructions is not written in either way
          intro b blocks b' hrun
          rw [StateT.run_bind] at hrun
          obtain ⟨⟨name, b₁⟩, -, hrun⟩ := bind_eq_ok.1 hrun
          rw [StateT.run_bind] at hrun
          obtain ⟨⟨body, b₂⟩, hwritten, -⟩ := bind_eq_ok.1 hrun
          obtain ⟨body', hagain, -⟩ := hbody b₁ body b₂ hwritten
          rw [encode_of_noCode hcode'] at hagain
          cases hagain

/-- A method that was read back is written again. -/
theorem repeats_method (h : m.Restored m') : Repeats (encodeMethod m) (encodeMethod m') Eq := by
  have hthrows : encodeThrowsPart m' = encodeThrowsPart m := by
    unfold encodeThrowsPart
    rw [h.throws]
  rw [encodeMethod_eq, encodeMethod_eq, h.name, h.descriptor, h.access, hthrows]
  refine .after _ fun name => .after _ fun descriptor => (repeats_codePart h).bind ?_
  rintro code _ rfl
  exact .refl _

theorem repeats_classBody (h : c.Restored c') : Repeats (encodeBody c) (encodeBody c') Eq := by
  rw [encodeBody_eq, encodeBody_eq, h.name, h.superName, h.interfaces, h.fields, h.access, h.sourceFile,
    h.methods.length_eq]
  refine .after _ fun name => .after _ fun superName => .after _ fun interfaceCount => .after _ fun interfaces => ?_
  refine .after _ fun fieldCount => .after _ fun fields => .after _ fun methodCount => ?_
  refine (Repeats.mapM h.methods fun m m' hm => (repeats_method hm).mapError).bind ?_
  rintro methods _ rfl
  exact .refl _

/-- A class that was read back is written to the same bytes. -/
theorem encodeClass_again {bytes : Bytes} (h : c.Restored c') (hbytes : encodeClass c = .ok bytes) :
    encodeClass c' = .ok bytes := by
  obtain ⟨⟨body, b⟩, hbody, hrest⟩ := bind_eq_ok.1 hbytes
  obtain ⟨_, hbody', rfl⟩ := repeats_classBody h {} body b hbody
  refine bind_eq_ok.2 ⟨(body, b), hbody', ?_⟩
  have hmajor : min (min c.major maxMajor) maxMajor = min c.major maxMajor := by grind
  rw [h.minor, h.major, hmajor]
  exact hrest

/-- Encoding undoes decoding on what was encoded: the bytes of a class file that was written are decoded to a class
that is written to just these bytes. -/
theorem encodeClass_decodeClass {bytes : Bytes} (hflags : hasKnownFlags c = true)
    (hconsistent : ∀ m ∈ c.methods, ∀ i ∈ m.code, isConsistent i = true) (h : encodeClass c = .ok bytes) :
    ∃ c', decodeClass bytes = .ok c' ∧ encodeClass c' = .ok bytes := by
  obtain ⟨b, body, raw, hraw, hparse⟩ := exists_classFor hflags hconsistent h
  obtain ⟨c', hdecode, hrestored⟩ := hraw.decoded
  refine ⟨c', ?_, encodeClass_again hrestored h⟩
  rw [decodeClass, hparse]
  exact hdecode

/-- The class with the empty handler range and the last line marker, which are both lost. -/
theorem looping_again : hasKnownFlags loopingClass = true ∧
    (∀ m ∈ loopingClass.methods, ∀ i ∈ m.code, isConsistent i = true) ∧
    encodeClass loopingClass = .ok loopingBytes ∧
    ∃ c', decodeClass loopingBytes = .ok c' ∧ encodeClass c' = .ok loopingBytes :=
  ⟨by decide, by decide, encodeClass_looping,
    encodeClass_decodeClass (by decide) (by decide) encodeClass_looping⟩

end Classes

end Unscramble.ClassFile
