/-
A body is read back.  The reader gives a label to every offset to which anything refers and puts it, with the line
markers, before the instruction at that offset; so the position of a label is the number of instructions that
start before its offset, as it was where the body was written.
-/
import Unscramble.Proofs.CodeLayout
import Unscramble.Proofs.Markers

namespace Unscramble.ClassFile.Code

section Writing

variable {α : Type} {b : PoolBuilder} {offsets : List (Label × Nat)} {offset stop : Nat} {placed : List (Instr × Nat)}
  {blocks : List Bytes}

/-- What is picked from a body has the position of its offset. -/
theorem Laid.positions_eq (h : Laid b offsets offset placed blocks stop) (pick : Instr → Option α) (front : Nat) :
    positions pick front (placed.map Prod.fst) =
      placed.filterMap fun p => (pick p.1).map (front + rank (starts placed) p.2, ·) := by
  induction h generalizing front with
  | nil => rfl
  | @marker offset stop i rest blocks hmarker hrest ih =>
      have hzero : rank (starts rest) offset = 0 :=
        rank_first fun o ho => hrest.le_of_mem o (List.mem_append_left _ ho)
      rw [List.map_cons, positions, if_pos hmarker, ih, List.filterMap_cons, starts_cons_marker hmarker, hzero]
      cases pick i <;> rfl
  | @instr offset stop i rest op operands blocks hreal _ hrest ih =>
      have hlater : ∀ o ∈ boundaries rest stop, offset < o := fun o ho => by
        have hle := hrest.le_of_mem o ho
        omega
      have hzero : rank (offset :: starts rest) offset = 0 :=
        rank_first (List.forall_mem_cons.2
          ⟨Nat.le_refl _, fun o ho => Nat.le_of_lt (hlater o (List.mem_append_left _ ho))⟩)
      have hrest' : rest.filterMap (fun p => (pick p.1).map (front + rank (offset :: starts rest) p.2, ·)) =
          rest.filterMap fun p => (pick p.1).map (front + 1 + rank (starts rest) p.2, ·) := by
        refine List.filterMap_congr fun p hp => ?_
        rw [rank_cons (hlater p.2 (hrest.mem_boundaries p hp)), Nat.add_assoc, Nat.add_comm 1]
      rw [List.map_cons, positions, if_neg (by rw [hreal]; decide), ih, List.filterMap_cons, starts_cons_instr hreal,
        hrest', hzero]
      cases pick i <;> rfl

theorem labelOffsets_eq (placed : List (Instr × Nat)) :
    labelOffsets placed = (placed.filterMap fun p => p.1.label?.map (·, p.2)).reverse := by
  rw [labelOffsets]
  congr 1
  refine List.filterMap_congr ?_
  rintro ⟨i, o⟩ -
  cases i <;> rfl

theorem Laid.pairwise_placed (h : Laid b offsets offset placed blocks stop) : placed.Pairwise (·.2 ≤ ·.2) := by
  induction h with
  | nil => exact .nil
  | marker _ hrest ih => exact .cons (fun p hp => hrest.le_of_mem p.2 (hrest.mem_boundaries p hp)) ih
  | @instr offset stop i rest op operands blocks _ _ hrest ih =>
      refine .cons (fun p hp => ?_) ih
      have hle := hrest.le_of_mem p.2 (hrest.mem_boundaries p hp)
      show offset ≤ p.2
      omega

/-- The position of a label is that of its offset. -/
theorem Laid.position?_eq (h : Laid b offsets 0 placed blocks stop) (label : Label) :
    position? (placed.map Prod.fst) label = ((labelOffsets placed).lookup label).map (rank (starts placed)) := by
  have hmap : labelPositions (placed.map Prod.fst) =
      (labelOffsets placed).map fun p => (p.1, rank (starts placed) p.2) := by
    rw [labelPositions, h.positions_eq, labelOffsets_eq, List.map_reverse, List.map_filterMap, List.map_filterMap]
    congr 1
    refine List.filterMap_congr fun p _ => ?_
    cases p.1.label? <;> simp
  rw [position?, hmap, lookup_map_snd]

theorem mem_of_labelOffsets {label : Label} {o : Nat} (h : (labelOffsets placed).lookup label = some o) :
    (Instr.label label, o) ∈ placed := by
  have hmem := mem_of_lookup h
  rw [labelOffsets_eq, List.mem_reverse, List.mem_filterMap] at hmem
  obtain ⟨⟨i, o'⟩, hp, heq⟩ := hmem
  obtain ⟨l, hl, hpair⟩ := Option.map_eq_some_iff.1 heq
  cases hpair
  cases i <;> cases hl
  exact hp

end Writing

section Decoding

variable {b : PoolBuilder} {offsets : List (Label × Nat)} {stop : Nat} {placed : List (Instr × Nat)}
  {blocks : List Bytes}

/-- Labels in the order of their offsets, numbered from the first one. -/
def numbered (first : Nat) (targets : List Nat) : Labels :=
  targets.zipIdx.map fun (offset, n) => (offset, ⟨first + n⟩)

@[simp] theorem length_numbered (first : Nat) (targets : List Nat) : (numbered first targets).length = targets.length := by
  simp [numbered]

theorem map_fst_numbered (first : Nat) (targets : List Nat) : (numbered first targets).map Prod.fst = targets := by
  simp [numbered, Function.comp_def]

theorem map_snd_numbered (first : Nat) (targets : List Nat) :
    (numbered first targets).map Prod.snd = (List.range targets.length).map fun n => (⟨first + n⟩ : Label) := by
  have hmap : (numbered first targets).map Prod.snd =
      (targets.zipIdx.map Prod.snd).map fun n => (⟨first + n⟩ : Label) := by
    rw [numbered, List.map_map, List.map_map]
    rfl
  rw [hmap, List.zipIdx_map_snd, List.range_eq_range']

theorem nodup_numbered (first : Nat) (targets : List Nat) : ((numbered first targets).map Prod.snd).Nodup := by
  rw [map_snd_numbered]
  exact List.nodup_range.map fun n n' heq => Nat.add_left_cancel (congrArg Label.id heq)

theorem exists_lookup_numbered {first : Nat} {targets : List Nat} (hsorted : targets.Pairwise (· < ·)) {o : Nat}
    (ho : o ∈ targets) : ∃ label, (numbered first targets).lookup o = some label := by
  rw [← map_fst_numbered first targets, List.mem_map] at ho
  obtain ⟨⟨o', label⟩, hmem, rfl⟩ := ho
  refine ⟨label, (lookup_eq_some_iff_mem ?_).2 hmem⟩
  rw [map_fst_numbered]
  exact hsorted.imp Nat.ne_of_lt

/-- The reader's label for the offset of a label. -/
def renamed (offsets : List (Label × Nat)) (labels : Labels) (label : Label) : Label :=
  ((offsets.lookup label).bind fun o => labels.lookup o).getD ⟨0⟩

theorem renamed_eq {labels : Labels} {label found : Label} {o : Nat} (ho : offsets.lookup label = some o)
    (hfound : labels.lookup o = some found) : renamed offsets labels label = found := by
  rw [renamed, ho, Option.bind_some, hfound, Option.getD_some]

/-- A label keeps its position when it is renamed. -/
theorem Laid.position?_renamed (h : Laid b offsets 0 placed blocks stop) (hoffsets : offsets = labelOffsets placed)
    {labels : Labels} {lines : List (Nat × UInt16)} {instrs : List (Nat × Instr)}
    (hmarks : Marks labels lines (instrs.map Prod.fst) stop) (hreal : ∀ p ∈ instrs, p.2.isMarker = false)
    (hstarts : instrs.map Prod.fst = starts placed) (hnodup : (labels.map Prod.snd).Nodup) {label found : Label}
    {o : Nat} (ho : offsets.lookup label = some o) (hfound : labels.lookup o = some found) :
    position? (withMarkers labels lines instrs []) (renamed offsets labels label) =
      position? (placed.map Prod.fst) label := by
  rw [h.position?_eq, ← hoffsets, ho, renamed_eq ho hfound, position?, labelPositions, (hmarks.placed hreal 0).2.2,
    Option.map_some, hstarts, List.map_map, ← List.map_reverse]
  have hkeys : ((labels.reverse.map
      (Prod.swap ∘ fun p => (0 + rank (starts placed) p.1, p.2))).map Prod.fst).Nodup := by
    rw [List.map_map, List.map_reverse]
    exact List.nodup_reverse.2 hnodup
  rw [lookup_eq_some_iff_mem hkeys, List.mem_map]
  refine ⟨(o, found), List.mem_reverse.2 (mem_of_lookup hfound), ?_⟩
  simp

theorem map_offset_of_pieces {items : List (Instr × Nat)} {pieces : List Piece}
    (h : List.Forall₂ (IsPieceOf b offsets) items pieces) : pieces.map (·.offset) = items.map Prod.snd :=
  (map_eq_of_forall₂ (h.imp fun _ _ hpiece => hpiece.1.symm)).symm

/-- The instruction of a piece with its offset. -/
def decodeAt (pool : ConstantPool) (labels : Labels) (p : Piece) : Except CodeFault (Nat × Instr) :=
  match decodePiece pool labels p with
  | .ok instr => .ok (p.offset, instr)
  | .error reason => .error (.instr p.offset reason)

theorem mapM_pieces {items : List (Instr × Nat)} {pieces : List Piece} {labels : Labels} {f : Label → Label}
    (h : List.Forall₂ (IsPieceOf b offsets) items pieces)
    (hf : ∀ p ∈ items, ∀ label ∈ p.1.targets, ∀ o, offsets.lookup label = some o →
      labels.lookup o = some (f label)) :
    pieces.mapM (decodeAt b.table labels) = .ok (items.map fun p => (p.2, p.1.relabel f)) := by
  rw [mapM_eq_ok, List.forall₂_map_right_iff]
  induction h with
  | nil => exact .nil
  | @cons p piece items pieces hfirst _ ih =>
      obtain ⟨hp, hitems⟩ := List.forall_mem_cons.1 hf
      obtain ⟨hoffset, hdecoded⟩ := hfirst
      refine .cons ?_ (ih hitems)
      rw [decodeAt, hdecoded labels f hp, hoffset]

/-- The written form of a handler range. -/
structure HandlerFor (b : PoolBuilder) (offsets : List (Label × Nat)) (block : TryBlock) (raw : RawHandler) :
    Prop where
  start : offsets.lookup block.start = some raw.start.toNat
  stop : offsets.lookup block.stop = some raw.stop.toNat
  handler : offsets.lookup block.handler = some raw.handler.toNat
  catchType : b.IsOptionalClass raw.catchType block.catchType

/-- The labels of a handler range. -/
def rangeLabels (block : TryBlock) : List Label :=
  [block.start, block.stop, block.handler]

def rangeOffsets (raw : RawHandler) : List Nat :=
  [raw.start.toNat, raw.stop.toNat, raw.handler.toNat]

theorem HandlerFor.offsets_eq {block : TryBlock} {raw : RawHandler} (h : HandlerFor b offsets block raw) :
    List.Forall₂ (fun label o => offsets.lookup label = some o) (rangeLabels block) (rangeOffsets raw) :=
  .cons h.start (.cons h.stop (.cons h.handler .nil))

theorem offsets_of_handlers {tries : List TryBlock} {handlers : List RawHandler}
    (h : List.Forall₂ (HandlerFor b offsets) tries handlers) :
    List.Forall₂ (fun label o => offsets.lookup label = some o) (tries.flatMap rangeLabels)
      (handlers.flatMap rangeOffsets) := by
  induction h with
  | nil => exact .nil
  | cons hfirst _ ih => exact List.rel_append hfirst.offsets_eq ih

/-- The handler range that its written form stands for. -/
def decodeRange (pool : ConstantPool) (labels : Labels) (h : RawHandler) : Except CodeFault TryBlock := do
  let catchType ←
    if h.catchType = 0 then pure none
    else some <$> (pool.className h.catchType).mapError CodeFault.catchType
  let start ← labelAt labels h.start.toNat
  let stop ← labelAt labels h.stop.toNat
  let handler ← labelAt labels h.handler.toNat
  pure ⟨start, stop, handler, catchType⟩

theorem mapM_handlers {tries : List TryBlock} {handlers : List RawHandler} {labels : Labels} {f : Label → Label}
    (h : List.Forall₂ (HandlerFor b offsets) tries handlers)
    (hf : ∀ block ∈ tries, ∀ label ∈ rangeLabels block, ∀ o, offsets.lookup label = some o →
      labels.lookup o = some (f label)) :
    handlers.mapM (decodeRange b.table labels) = .ok (tries.map (·.relabel f)) := by
  rw [mapM_eq_ok, List.forall₂_map_right_iff]
  induction h with
  | nil => exact .nil
  | @cons block raw tries handlers hfirst _ ih =>
      obtain ⟨hblock, htries⟩ := List.forall_mem_cons.1 hf
      have hlabel : ∀ label ∈ rangeLabels block, ∀ o, offsets.lookup label = some o →
          labelAt labels o = .ok (f label) := by
        intro label hlabel o ho
        rw [labelAt, hblock label hlabel o ho]
      have hrange : ∀ catchType, (do
          let start ← labelAt labels raw.start.toNat
          let stop ← labelAt labels raw.stop.toNat
          let handler ← labelAt labels raw.handler.toNat
          pure (⟨start, stop, handler, catchType⟩ : TryBlock)) =
            .ok ⟨f block.start, f block.stop, f block.handler, catchType⟩ := by
        intro catchType
        refine bind_eq_ok.2 ⟨_, hlabel _ (by simp [rangeLabels]) _ hfirst.start, ?_⟩
        refine bind_eq_ok.2 ⟨_, hlabel _ (by simp [rangeLabels]) _ hfirst.stop, ?_⟩
        exact bind_eq_ok.2 ⟨_, hlabel _ (by simp [rangeLabels]) _ hfirst.handler, rfl⟩
      refine .cons ?_ (ih htries)
      unfold decodeRange TryBlock.relabel
      rcases hfirst.catchType with ⟨hzero, hnone⟩ | ⟨hne, name, hname, hsome⟩
      · rw [if_pos hzero, hnone]
        exact hrange none
      · rw [if_neg hne, hname, hsome]
        exact hrange (some name)

/-- The line markers in front of an instruction, by offsets. -/
def writtenLines (placed : List (Instr × Nat)) (stop : Nat) : List (Nat × UInt16) :=
  placed.filterMap fun p => if p.2 < stop then p.1.line?.map (p.2, ·) else none

theorem mem_writtenLines {p : Nat × UInt16} (h : p ∈ writtenLines placed stop) :
    p.1 < stop ∧ (Instr.line p.2, p.1) ∈ placed := by
  obtain ⟨⟨i, o⟩, hmem, heq⟩ := List.mem_filterMap.1 h
  split at heq
  · next hlt =>
      obtain ⟨n, hn, rfl⟩ := Option.map_eq_some_iff.1 heq
      cases i <;> cases hn
      exact ⟨hlt, hmem⟩
  · cases heq

theorem Laid.pairwise_writtenLines (h : Laid b offsets 0 placed blocks stop) :
    (writtenLines placed stop).Pairwise (·.1 ≤ ·.1) := by
  have hoffset : ∀ (p : Instr × Nat) (q : Nat × UInt16),
      (if p.2 < stop then p.1.line?.map (p.2, ·) else none) = some q → q.1 = p.2 := by
    intro p q hq
    split at hq
    · obtain ⟨n, -, rfl⟩ := Option.map_eq_some_iff.1 hq
      rfl
    · cases hq
  refine List.Pairwise.filterMap _ (fun p p' hle q hq q' hq' => ?_) h.pairwise_placed
  rw [hoffset p q hq, hoffset p' q' hq']
  exact hle

/-- The reader has a label for the offset of a label. -/
def HasPlace (offsets : List (Label × Nat)) (labels : Labels) (label : Label) : Prop :=
  ∃ o found, offsets.lookup label = some o ∧ labels.lookup o = some found

theorem HasPlace.lookup {labels : Labels} {label : Label} (h : HasPlace offsets labels label) {o : Nat}
    (ho : offsets.lookup label = some o) : labels.lookup o = some (renamed offsets labels label) := by
  obtain ⟨o', found, ho', hfound⟩ := h
  cases ho.symm.trans ho'
  rw [renamed_eq ho hfound, hfound]

section Steps

variable {pool : ConstantPool} {first : Nat} {raw : RawCode} {pieces : List Piece} {branches targets : List Nat}
  {lines : List (Nat × UInt16)} (hcut : cut 0 raw.code [] [] = .ok (pieces, branches))
  (hlines : (raw.lines.map fun p => (p.1.toNat, p.2)).mergeSort (fun a b => a.1 ≤ b.1) = lines)
  (htargets : distinct (branches ++ raw.handlers.flatMap rangeOffsets ++ lines.map (·.1)).mergeSort [] = targets)

include hcut hlines htargets

/-- A body that refers to an offset that is no boundary is refused. -/
theorem decode_of_outside {target : Nat}
    (houtside : firstOutside? targets (pieces.map (·.offset) ++ [raw.code.length]) = some target) :
    decode pool first raw = .error (.notBoundary target) := by
  subst hlines htargets
  rw [decode, hcut]
  dsimp only [bind, Except.bind]
  split
  · next hsome =>
      obtain rfl := Option.some.inj (houtside.symm.trans hsome)
      rfl
  · next hnone => cases houtside.symm.trans hnone

/-- The steps of decoding a body that refers to boundaries only. -/
theorem decode_of_inside
    (hinside : firstOutside? targets (pieces.map (·.offset) ++ [raw.code.length]) = none) :
    decode pool first raw = (do
      let instrs ← pieces.mapM (decodeAt pool (numbered first targets))
      let tries ← raw.handlers.mapM (decodeRange pool (numbered first targets))
      pure (withMarkers (numbered first targets) lines instrs [], tries,
        first + (numbered first targets).length)) := by
  subst hlines htargets
  rw [decode, hcut]
  dsimp only [bind, Except.bind]
  split
  · next hsome => cases hinside.symm.trans hsome
  · rfl

theorem decode_eq_ok {instrs : List (Nat × Instr)} {tries : List TryBlock}
    (hinside : firstOutside? targets (pieces.map (·.offset) ++ [raw.code.length]) = none)
    (hinstrs : pieces.mapM (decodeAt pool (numbered first targets)) = .ok instrs)
    (htries : raw.handlers.mapM (decodeRange pool (numbered first targets)) = .ok tries) :
    decode pool first raw = .ok (withMarkers (numbered first targets) lines instrs [], tries,
      first + (numbered first targets).length) := by
  rw [decode_of_inside hcut hlines htargets hinside]
  exact bind_eq_ok.2 ⟨instrs, hinstrs, bind_eq_ok.2 ⟨tries, htries, rfl⟩⟩

end Steps

theorem hasPlace_numbered {first : Nat} {targets : List Nat} (hsorted : targets.Pairwise (· < ·)) {label : Label}
    {o : Nat} (ho : offsets.lookup label = some o) (hmem : o ∈ targets) :
    HasPlace offsets (numbered first targets) label := by
  obtain ⟨found, hfound⟩ := @exists_lookup_numbered first targets hsorted o hmem
  exact ⟨o, found, ho, hfound⟩

/-- A label stands at an instruction or at the end of the body. -/
theorem Laid.lookup_mem_boundaries (h : Laid b offsets 0 placed blocks stop) (hoffsets : offsets = labelOffsets placed)
    {label : Label} {o : Nat} (ho : offsets.lookup label = some o) : o ∈ boundaries placed stop := by
  rw [hoffsets] at ho
  exact h.mem_boundaries _ (mem_of_labelOffsets ho)

/-- Numbered labels at boundaries and the written line markers stand as the reader needs them. -/
theorem Laid.marks_numbered (h : Laid b offsets 0 placed blocks stop) (first : Nat) {targets : List Nat}
    (hsorted : targets.Pairwise (· < ·)) (hbound : ∀ o ∈ targets, o ∈ boundaries placed stop) :
    Marks (numbered first targets) (writtenLines placed stop) (starts placed) stop := by
  refine ⟨h.pairwise, ?_, ?_, h.pairwise_writtenLines, ?_⟩
  · have hfirsts : ((numbered first targets).map Prod.fst).Pairwise (· ≤ ·) := by
      rw [map_fst_numbered]
      exact hsorted.imp Nat.le_of_lt
    exact List.pairwise_map.1 hfirsts
  · intro p hp
    exact hbound p.1 (map_fst_numbered first targets ▸ List.mem_map_of_mem hp)
  · intro p hp
    obtain ⟨hlt, hmem⟩ := mem_writtenLines hp
    exact (List.mem_append.1 (h.mem_boundaries _ hmem)).resolve_right fun hstop =>
      absurd (List.mem_singleton.1 hstop) (Nat.ne_of_lt hlt)

/-- What the reader makes of the bytes of a body. -/
theorem Laid.decode {raw : RawCode} {tries : List TryBlock} (h : Laid b offsets 0 placed blocks stop)
    (hoffsets : offsets = labelOffsets placed) (hcode : raw.code = blocks.flatten)
    (hlines : raw.lines.map (fun p => (p.1.toNat, p.2)) = writtenLines placed stop)
    (htries : List.Forall₂ (HandlerFor b offsets) tries raw.handlers) (first : Nat) :
    ∃ labels next, Code.decode b.table first raw =
        .ok (withMarkers labels (writtenLines placed stop)
          ((reals placed).map fun p => (p.2, p.1.relabel (renamed offsets labels))) [],
          tries.map (·.relabel (renamed offsets labels)), next) ∧
      Marks labels (writtenLines placed stop) (starts placed) stop ∧ (labels.map Prod.snd).Nodup ∧
      (∀ p ∈ placed, ∀ label ∈ p.1.targets, HasPlace offsets labels label) ∧
      ∀ block ∈ tries, ∀ label ∈ rangeLabels block, HasPlace offsets labels label := by
  obtain ⟨pieces, branches, hcut, hpieces, hbranches⟩ := h.cut [] []
  rw [List.reverse_nil, List.nil_append, List.append_nil] at hcut
  have hsort : (writtenLines placed stop).mergeSort (fun a b => a.1 ≤ b.1) = writtenLines placed stop :=
    List.mergeSort_of_pairwise (h.pairwise_writtenLines.imp decide_eq_true)
  have hranges := offsets_of_handlers htries
  obtain ⟨hsorted, hmem⟩ := gathered_targets
    (branches ++ raw.handlers.flatMap rangeOffsets ++ (writtenLines placed stop).map (·.1))
  generalize hgathered : distinct
    (branches ++ raw.handlers.flatMap rangeOffsets ++ (writtenLines placed stop).map (·.1)).mergeSort [] = targets
    at hsorted hmem
  -- every target is the offset of a label or of a line marker in the body
  have hbound : ∀ o ∈ targets, o ∈ boundaries placed stop := by
    intro o ho
    rw [hmem, List.mem_append, List.mem_append] at ho
    rcases ho with (hbranch | hrange) | hline
    · obtain ⟨p, -, label, -, ho⟩ := (hbranches o).1 hbranch
      exact h.lookup_mem_boundaries hoffsets ho
    · obtain ⟨label, -, ho⟩ := (mem_iff_of_lookup hranges o).1 hrange
      exact h.lookup_mem_boundaries hoffsets ho
    · obtain ⟨p, hp, rfl⟩ := List.mem_map.1 hline
      exact h.mem_boundaries _ (mem_writtenLines hp).2
  have hoperands : ∀ p ∈ placed, ∀ label ∈ p.1.targets, HasPlace offsets (numbered first targets) label := by
    intro p hp label hl
    obtain ⟨o, ho⟩ := h.exists_lookup p hp label hl
    refine hasPlace_numbered hsorted ho ((hmem o).2 ?_)
    exact List.mem_append_left _ (List.mem_append_left _ ((hbranches o).2 ⟨p, hp, label, hl, ho⟩))
  have htryPlaces : ∀ block ∈ tries, ∀ label ∈ rangeLabels block,
      HasPlace offsets (numbered first targets) label := by
    intro block hblock label hl
    obtain ⟨o, hmemo, ho⟩ := exists_mem_of_lookup hranges (List.mem_flatMap.2 ⟨block, hblock, hl⟩)
    exact hasPlace_numbered hsorted ho ((hmem o).2 (List.mem_append_left _ (List.mem_append_right _ hmemo)))
  have hpieceOffsets : pieces.map (·.offset) ++ [raw.code.length] = boundaries placed stop := by
    rw [boundaries, hcode, h.stop_eq, Nat.zero_add]
    congr 1
    exact (map_offset_of_pieces hpieces)
  have hinside : firstOutside? targets (pieces.map (·.offset) ++ [raw.code.length]) = none := by
    rw [hpieceOffsets]
    exact firstOutside?_eq_none (hsorted.imp Nat.le_of_lt) h.pairwise hbound
  have hinstrs := @mapM_pieces b offsets _ _ (numbered first targets) (renamed offsets (numbered first targets))
    hpieces fun p hp label hl o ho => (hoperands p (List.mem_of_mem_filter hp) label hl).lookup ho
  have hhandlers := @mapM_handlers b offsets _ _ (numbered first targets)
    (renamed offsets (numbered first targets)) htries
    fun block hblock label hl o ho => (htryPlaces block hblock label hl).lookup ho
  refine ⟨numbered first targets, first + (numbered first targets).length, ?_, h.marks_numbered first hsorted hbound,
    nodup_numbered first targets, hoperands, htryPlaces⟩
  rw [← hcode] at hcut
  rw [← hlines] at hsort
  exact decode_eq_ok hcut (hsort.trans hlines) hgathered hinside hinstrs hhandlers

theorem filter_map_fst (placed : List (Instr × Nat)) :
    (placed.map Prod.fst).filter (!·.isMarker) = (reals placed).map Prod.fst := by
  rw [List.filter_map, reals]
  rfl

/-- The written line markers are those in front of an instruction. -/
theorem Laid.lines_eq (h : Laid b offsets 0 placed blocks stop) :
    (writtenLines placed stop).map (fun p => (0 + rank (starts placed) p.1, p.2)) =
      (positions Instr.line? 0 (placed.map Prod.fst)).filter fun p => p.1 < (starts placed).length := by
  rw [h.positions_eq, writtenLines, List.map_filterMap, List.filter_filterMap]
  refine List.filterMap_congr fun p hp => ?_
  have hrank := rank_lt_length h.pairwise (h.mem_boundaries p hp)
  cases p.1.line? with
  | none => simp
  | some n =>
      by_cases hlt : p.2 < stop
      · simpa [hlt, Option.filter] using hrank.2 hlt
      · simpa [hlt, Option.filter] using mt hrank.1 hlt

/-- Whether a handler range is written. -/
def isWrittenRange (offsets : List (Label × Nat)) (block : TryBlock) : Bool :=
  match offsets.lookup block.start, offsets.lookup block.stop with
  | some start, some stop => start < stop
  | _, _ => false

/-- The written handler ranges are those with an instruction in them. -/
theorem Laid.isProper_eq (h : Laid b offsets 0 placed blocks stop) (hoffsets : offsets = labelOffsets placed)
    (block : TryBlock) : (rangeOutline (placed.map Prod.fst) block).isProper = isWrittenRange offsets block := by
  have hbound : ∀ label o, offsets.lookup label = some o → o ∈ boundaries placed stop := by
    intro label o ho
    rw [hoffsets] at ho
    exact h.mem_boundaries _ (mem_of_labelOffsets ho)
  rw [rangeOutline, RangeOutline.isProper, h.position?_eq, h.position?_eq, ← hoffsets, isWrittenRange]
  cases hstart : offsets.lookup block.start with
  | none => rfl
  | some start =>
      cases hstop : offsets.lookup block.stop with
      | none => rfl
      | some last =>
          have hlt := rank_lt_rank h.pairwise (hbound _ _ hstart) (hbound _ _ hstop)
          exact decide_eq_decide.2 hlt

/-- A body is read back up to the names of its labels, without what is not written. -/
theorem Laid.decode_outline {raw : RawCode} {tries : List TryBlock} (h : Laid b offsets 0 placed blocks stop)
    (hoffsets : offsets = labelOffsets placed) (hcode : raw.code = blocks.flatten)
    (hlines : raw.lines.map (fun p => (p.1.toNat, p.2)) = writtenLines placed stop)
    (htries : List.Forall₂ (HandlerFor b offsets) (tries.filter (isWrittenRange offsets)) raw.handlers)
    (first : Nat) :
    ∃ code' tries' next, Code.decode b.table first raw = .ok (code', tries', next) ∧
      outline code' tries' = (outline (placed.map Prod.fst) tries).trimmed := by
  obtain ⟨labels, next, hdecode, hmarks, hnodup, hoperands, hranges⟩ := h.decode hoffsets hcode hlines htries first
  refine ⟨_, _, _, hdecode, ?_⟩
  generalize hinstrs : (reals placed).map (fun p => (p.2, p.1.relabel (renamed offsets labels))) = instrs
  have hstarts : instrs.map Prod.fst = starts placed := by
    rw [← hinstrs, List.map_map]
    rfl
  have hreal : ∀ p ∈ instrs, p.2.isMarker = false := by
    rw [← hinstrs]
    intro p hp
    obtain ⟨q, hq, rfl⟩ := List.mem_map.1 hp
    simpa using (List.mem_filter.1 hq).2
  rw [← hstarts] at hmarks
  obtain ⟨hreals, hlinePositions, -⟩ := hmarks.placed hreal 0
  have hkeeps : ∀ label, HasPlace offsets labels label →
      position? (withMarkers labels (writtenLines placed stop) instrs []) (renamed offsets labels label) =
        position? (placed.map Prod.fst) label := by
    rintro label ⟨o, found, ho, hfound⟩
    exact h.position?_renamed hoffsets hmarks hreal hstarts hnodup ho hfound
  have hcount : (outline (placed.map Prod.fst) tries).instrs.length = (starts placed).length := by
    simp only [outline, filter_map_fst, List.length_map, starts]
  rw [Outline.trimmed, hcount]
  unfold outline
  rw [hreals, hlinePositions, hstarts, h.lines_eq, filter_map_fst, ← hinstrs]
  simp only [Outline.mk.injEq, List.map_map, true_and]
  refine ⟨List.map_congr_left fun p hp => ?_, ?_⟩
  · have hpositions := fun label hl => hkeeps label (hoperands p (List.mem_of_mem_filter hp) label hl)
    simp only [Function.comp_apply, Instr.blank_relabel, Instr.targets_relabel, List.map_map, Prod.mk.injEq, true_and]
    rw [hinstrs]
    exact List.map_congr_left hpositions
  · have hproper : ∀ block ∈ tries,
        (RangeOutline.isProper ∘ rangeOutline (placed.map Prod.fst)) block = isWrittenRange offsets block :=
      fun block _ => h.isProper_eq hoffsets block
    rw [List.filter_map, List.filter_congr hproper, hinstrs]
    refine List.map_congr_left fun block hblock => ?_
    have hpositions := fun label hl => hkeeps label (hranges block hblock label hl)
    simp only [Function.comp_apply, rangeOutline, TryBlock.relabel, RangeOutline.mk.injEq, and_true]
    exact ⟨hpositions _ (by simp [rangeLabels]), hpositions _ (by simp [rangeLabels]),
      hpositions _ (by simp [rangeLabels])⟩

end Decoding

end Unscramble.ClassFile.Code
