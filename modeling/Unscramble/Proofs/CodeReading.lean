/-
What the reader makes of a body.  A body that the scan passes is refused for a target that is no start of an
instruction, for a reference that the pool does not resolve or for a code that is not supported, and for nothing
else.  Otherwise every piece of the scan gives an instruction, and the labels stand at the offsets to which anything
refers, in ascending order and with instructions between them.
-/
import Unscramble.Proofs.BodyReading
import Unscramble.Proofs.CodeScanning
import Unscramble.Proofs.Labels

namespace Unscramble.ClassFile.Code

section Boundaries

/-- The offset that the check names is a target but no boundary. -/
theorem firstOutside?_eq_some {targets bounds : List Nat} {target : Nat}
    (htargets : targets.Pairwise (· < ·)) (hbounds : bounds.Pairwise (· < ·))
    (h : firstOutside? targets bounds = some target) : target ∈ targets ∧ target ∉ bounds := by
  fun_induction firstOutside? targets bounds with
  | case1 => cases h
  | case2 first more =>
      obtain rfl := Option.some.inj h
      exact ⟨List.mem_cons_self, List.not_mem_nil⟩
  | case3 more first rest ih =>
      obtain ⟨hmem, hout⟩ := ih (List.pairwise_cons.1 htargets).2 hbounds h
      exact ⟨List.mem_cons_of_mem _ hmem, hout⟩
  | case4 first more boundary rest hne hlt =>
      obtain rfl := Option.some.inj h
      refine ⟨List.mem_cons_self, fun hmem => ?_⟩
      rcases List.mem_cons.1 hmem with heq | hrest
      · exact hne heq
      · have := List.rel_of_pairwise_cons hbounds hrest
        omega
  | case5 first more boundary rest hne hlt ih =>
      obtain ⟨hmem, hout⟩ := ih htargets (List.pairwise_cons.1 hbounds).2 h
      refine ⟨hmem, fun hin => ?_⟩
      rcases List.mem_cons.1 hin with rfl | hrest
      · -- a boundary below the first target is no target
        rcases List.mem_cons.1 hmem with heq | hmore
        · exact hne heq.symm
        · have := List.rel_of_pairwise_cons htargets hmore
          omega
      · exact hout hrest

/-- Where the check finds nothing, all targets are boundaries. -/
theorem mem_of_firstOutside?_eq_none {targets bounds : List Nat} (h : firstOutside? targets bounds = none) :
    ∀ o ∈ targets, o ∈ bounds := by
  fun_induction firstOutside? targets bounds with
  | case1 => exact fun o ho => absurd ho List.not_mem_nil
  | case2 => cases h
  | case3 more first rest ih => exact List.forall_mem_cons.2 ⟨List.mem_cons_self, ih h⟩
  | case4 => cases h
  | case5 first more boundary rest hne hlt ih => exact fun o ho => List.mem_cons_of_mem boundary (ih h o ho)

end Boundaries

section Arrangement

variable {stop : Nat} {labels : Labels} {instrs : List (Nat × Instr)} {code : List Instr}

/-- The code has the label of each instruction in front of it and that of the end at the end. -/
inductive Arranged (stop : Nat) : Labels → List (Nat × Instr) → List Instr → Prop where
  | nil {here : Labels} (hone : here.length ≤ 1) (hhere : ∀ p ∈ here, p.1 = stop) :
      Arranged stop here [] (marksOf here [])
  | cons {here later : Labels} {offset : Nat} {instr : Instr} {instrs : List (Nat × Instr)} {code : List Instr}
      (hone : here.length ≤ 1) (hhere : ∀ p ∈ here, p.1 = offset) (lines : List (Nat × UInt16))
      (hreal : instr.isMarker = false) (hrest : Arranged stop later instrs code) :
      Arranged stop (here ++ later) ((offset, instr) :: instrs) (marksOf here lines ++ instr :: code)

theorem length_le_one_of_fst {α : Type} {items : List (Nat × α)} {offset : Nat} (hsorted : items.Pairwise (·.1 < ·.1))
    (h : ∀ p ∈ items, p.1 = offset) : items.length ≤ 1 := by
  match items with
  | [] => exact Nat.zero_le 1
  | [_] => exact Nat.le_refl 1
  | first :: second :: _ =>
      have hlt := List.rel_of_pairwise_cons hsorted List.mem_cons_self
      rw [h first (by simp), h second (by simp)] at hlt
      exact absurd hlt (Nat.lt_irrefl offset)

/-- The reader arranges code so, wherever the lines stand. -/
theorem arranged_withMarkers (hbounds : (instrs.map Prod.fst ++ [stop]).Pairwise (· < ·))
    (hreal : ∀ p ∈ instrs, p.2.isMarker = false) (hsorted : labels.Pairwise (·.1 < ·.1))
    (hmem : ∀ p ∈ labels, p.1 ∈ instrs.map Prod.fst ++ [stop]) (lines : List (Nat × UInt16)) :
    Arranged stop labels instrs (withMarkers labels lines instrs []) := by
  induction instrs generalizing labels lines with
  | nil =>
      have hhere : ∀ p ∈ labels, p.1 = stop := fun p hp => List.mem_singleton.1 (hmem p hp)
      have hmarks : withMarkers labels lines [] [] = marksOf labels [] := by
        rw [withMarkers_nil, marksOf, List.map_nil, List.append_nil]
      rw [hmarks]
      exact .nil (length_le_one_of_fst hsorted hhere) hhere
  | cons first rest ih =>
      obtain ⟨offset, instr⟩ := first
      obtain ⟨hfirst, hrest⟩ := List.pairwise_cons.1 hbounds
      obtain ⟨hinstr, hinstrs⟩ := List.forall_mem_cons.1 hreal
      obtain ⟨here, later, hspan, rfl, hhere, hlater⟩ := span_ascending (hsorted.imp Nat.le_of_lt)
        (t := fun p => decide (p.1 = offset)) fun p hp => ⟨by
          rcases List.mem_cons.1 (hmem p hp) with heq | hbehind
          · exact Nat.le_of_eq heq.symm
          · exact Nat.le_of_lt (hfirst p.1 hbehind), decide_eq_true_iff⟩
      rcases hlines : lines.span (·.1 ≤ offset) with ⟨linesHere, linesLater⟩
      obtain ⟨hsortedHere, hsortedLater, -⟩ := List.pairwise_append.1 hsorted
      rw [withMarkers_cons hspan hlines]
      refine .cons (length_le_one_of_fst hsortedHere hhere) hhere linesHere hinstr
        (ih hrest hinstrs hsortedLater (fun p hp => ?_) linesLater)
      have hcons := hmem p (List.mem_append_right here hp)
      exact (List.mem_cons.1 hcons).resolve_left (Nat.ne_of_gt (hlater p hp))

theorem Arranged.filter_eq (h : Arranged stop labels instrs code) :
    code.filter (!·.isMarker) = instrs.map Prod.snd := by
  induction h with
  | nil => exact filter_marksOf _ _
  | cons _ _ lines hreal _ ih =>
      rw [List.filter_append, filter_marksOf, List.nil_append, List.filter_cons_of_pos (by rw [hreal]; rfl), ih]
      rfl

theorem Arranged.labelsIn_eq (h : Arranged stop labels instrs code) : labelsIn code = labels.map Prod.snd := by
  induction h with
  | nil => exact filterMap_label?_marksOf _ _
  | cons _ _ lines hreal _ ih =>
      rw [labelsIn_append, labelsIn, filterMap_label?_marksOf, labelsIn,
        List.filterMap_cons_none (Instr.label?_of_not_isMarker hreal), List.map_append]
      exact congrArg _ ih

theorem Arranged.apart (h : Arranged stop labels instrs code) : LabelsApart code := by
  have hone : ∀ {here : Labels}, here.length ≤ 1 → ∀ lines, (labelsIn (marksOf here lines)).length ≤ 1 := by
    intro here hhere lines
    rwa [labelsIn, filterMap_label?_marksOf, List.length_map]
  induction h with
  | nil hhere => exact labelsApart_of_length_le (hone hhere [])
  | cons hhere _ lines hreal _ ih => exact ih.append_cons (hone hhere lines) hreal

/-- The label stands once, in front of the instruction at the offset or at the end of the code. -/
def StandsAt (bounds : List Nat) (code : List Instr) (o : Nat) (label : Label) : Prop :=
  ∃ before after, code = before ++ .label label :: after ∧ label ∉ labelsIn before ∧ label ∉ labelsIn after ∧
    bounds[(before.filter (!·.isMarker)).length]? = some o

theorem Arranged.exists_place (h : Arranged stop labels instrs code) : ∀ p ∈ labels, ∃ before after,
    code = before ++ .label p.2 :: after ∧
      (instrs.map Prod.fst ++ [stop])[(before.filter (!·.isMarker)).length]? = some p.1 := by
  have hsingle : ∀ {here : Labels} {p : Nat × Label}, here.length ≤ 1 → p ∈ here → here = [p] := by
    intro here p hone hp
    obtain ⟨q, rfl⟩ := List.length_eq_one_iff.1 (Nat.le_antisymm hone (List.length_pos_of_mem hp))
    rw [List.mem_singleton.1 hp]
  induction h with
  | nil hone hhere =>
      intro p hp
      obtain rfl := hsingle hone hp
      exact ⟨[], [], rfl, by rw [hhere p hp]; rfl⟩
  | @cons here later offset instr instrs code hone hhere lines hreal _ ih =>
      intro p hp
      rcases List.mem_append.1 hp with hp | hp
      · obtain rfl := hsingle hone hp
        exact ⟨[], lines.map (fun q => .line q.2) ++ instr :: code, rfl, by rw [hhere p hp]; rfl⟩
      · obtain ⟨before, after, rfl, hplace⟩ := ih p hp
        refine ⟨marksOf here lines ++ instr :: before, after, by simp, ?_⟩
        rwa [List.filter_append, filter_marksOf, List.nil_append, List.filter_cons_of_pos (by rw [hreal]; rfl),
          List.length_cons, List.map_cons, List.cons_append, List.getElem?_cons_succ]

theorem Arranged.standsAt (h : Arranged stop labels instrs code) (hnodup : (labels.map Prod.snd).Nodup) :
    ∀ p ∈ labels, StandsAt (instrs.map Prod.fst ++ [stop]) code p.1 p.2 := by
  intro p hp
  obtain ⟨before, after, hcode, hplace⟩ := h.exists_place p hp
  rw [← h.labelsIn_eq, hcode, labelsIn_append] at hnodup
  obtain ⟨-, hafter, hdisjoint⟩ := List.nodup_append.1 hnodup
  exact ⟨before, after, hcode, fun hl => hdisjoint _ hl _ List.mem_cons_self rfl, (List.nodup_cons.1 hafter).1, hplace⟩

end Arrangement

section Reading

variable {pool : ConstantPool} {first : Nat} {raw : RawCode} {pieces : List Piece} {branches : List Nat}
  {labels : Labels}

/-- The offsets to which the branches, the handler ranges and the lines of a body refer. -/
def referred (raw : RawCode) (branches : List Nat) : List Nat :=
  branches ++ raw.handlers.flatMap rangeOffsets ++ raw.lines.map (·.1.toNat)

/-- The offsets at which the pieces of a body start, and its end. -/
def bodyBounds (raw : RawCode) (pieces : List Piece) : List Nat :=
  pieces.map (·.offset) ++ [raw.code.length]

/-- Why a body is refused that the scan passes: a target is no boundary, or, if all of them are, an instruction or
the type of a handler is refused. -/
inductive RefusesBody (pool : ConstantPool) (raw : RawCode) (pieces : List Piece) (branches : List Nat) :
    CodeFault → Prop where
  | target {o : Nat} (hmem : o ∈ referred raw branches) (hout : o ∉ bodyBounds raw pieces) :
      RefusesBody pool raw pieces branches (.notBoundary o)
  | instr {p : Piece} {reason : CodeFault} (hinside : referred raw branches ⊆ bodyBounds raw pieces)
      (hp : p ∈ pieces) (h : Refuses pool p reason) : RefusesBody pool raw pieces branches (.instr p.offset reason)
  | catchType {handler : RawHandler} {reason : PoolFault} (hinside : referred raw branches ⊆ bodyBounds raw pieces)
      (hhandler : handler ∈ raw.handlers) (hne : handler.catchType ≠ 0)
      (h : pool.className handler.catchType = .error reason) :
      RefusesBody pool raw pieces branches (.catchType reason)

/-- The instruction of a piece, which the decoder reads from the bytes of the piece alone, with the labels of the
offsets to which the piece refers. -/
def Gives (pool : ConstantPool) (labels : Labels) (p : Piece) (i : Instr) : Prop :=
  (∀ behind, decodePiece pool labels { p with behind := behind } = .ok i) ∧
    ∃ found, branchTargets p = .ok found ∧ Uses labels found i.targets

/-- The labels of a handler range are those of its offsets. -/
def Covers (labels : Labels) (handler : RawHandler) (block : TryBlock) : Prop :=
  List.Forall₂ (fun o label => labels.lookup o = some label) (rangeOffsets handler) (rangeLabels block)

/-- A body as it is read: an instruction for each piece, the labels of all operands, and every label at its offset. -/
structure Restores (pool : ConstantPool) (first : Nat) (raw : RawCode) (pieces : List Piece) (branches : List Nat)
    (labels : Labels) (code : List Instr) (tries : List TryBlock) (next : Nat) : Prop where
  instrs : List.Forall₂ (Gives pool labels) pieces (code.filter (!·.isMarker))
  ranges : List.Forall₂ (Covers labels) raw.handlers tries
  offsets : ∀ o, (∃ label, labels.lookup o = some label) ↔ o ∈ referred raw branches
  placed : ∀ o label, labels.lookup o = some label → StandsAt (bodyBounds raw pieces) code o label
  numbered : labelsIn code = (List.range labels.length).map fun n => ⟨first + n⟩
  next_eq : next = first + labels.length
  apart : LabelsApart code

theorem cut_eq_ok (hcut : cut 0 raw.code [] [] = .ok (pieces, branches)) : Scans [] 0 raw.code pieces ∧
    ∀ o, o ∈ branches ↔ ∃ p ∈ pieces, ∃ own, branchTargets p = .ok own ∧ o ∈ own := by
  have hspec := cut_spec 0 raw.code [] []
  rw [hcut] at hspec
  obtain ⟨later, rfl, hscans, hbranches⟩ := hspec
  exact ⟨hscans, fun o => by rw [hbranches, or_iff_right List.not_mem_nil]⟩

/-- A piece of the body is decoded or refused, if all branches have labels. -/
theorem outcome_of_mem (pool : ConstantPool) (hcut : cut 0 raw.code [] [] = .ok (pieces, branches))
    (hlabels : ∀ o ∈ branches, ∃ label, labels.lookup o = some label) {p : Piece} (hp : p ∈ pieces) :
    ∃ found, branchTargets p = .ok found ∧ Outcome pool labels p found := by
  obtain ⟨hscans, hbranches⟩ := cut_eq_ok hcut
  obtain ⟨found, hpasses⟩ := hscans.passes p hp
  exact ⟨found, hpasses.targets,
    hpasses.outcome fun o ho => hlabels o ((hbranches o).2 ⟨p, hp, found, hpasses.targets, ho⟩)⟩

theorem decodeAt_eq_ok {p : Piece} {result : Nat × Instr} : decodeAt pool labels p = .ok result ↔
    decodePiece pool labels p = .ok result.2 ∧ result.1 = p.offset := by
  obtain ⟨offset, instr⟩ := result
  rw [decodeAt]
  cases decodePiece pool labels p with
  | ok i => simp [and_comm, eq_comm]
  | error reason => simp

theorem decodeAt_eq_error {p : Piece} {fault : CodeFault} (h : decodeAt pool labels p = .error fault) :
    ∃ reason, decodePiece pool labels p = .error reason ∧ fault = .instr p.offset reason := by
  rw [decodeAt] at h
  cases hdecoded : decodePiece pool labels p with
  | ok i =>
      rw [hdecoded] at h
      cases h
  | error reason =>
      rw [hdecoded] at h
      exact ⟨reason, rfl, (Except.error.inj h).symm⟩

/-- A handler range is read, or refused for its type, if its offsets have labels. -/
theorem decodeRange_cases (pool : ConstantPool) {handler : RawHandler}
    (hlabels : ∀ o ∈ rangeOffsets handler, ∃ label, labels.lookup o = some label) :
    (∃ block, decodeRange pool labels handler = .ok block ∧ Covers labels handler block) ∨
      ∃ reason, decodeRange pool labels handler = .error (.catchType reason) ∧ handler.catchType ≠ 0 ∧
        pool.className handler.catchType = .error reason := by
  obtain ⟨start, hstart⟩ := hlabels handler.start.toNat (by simp [rangeOffsets])
  obtain ⟨stop, hstop⟩ := hlabels handler.stop.toNat (by simp [rangeOffsets])
  obtain ⟨entry, hentry⟩ := hlabels handler.handler.toNat (by simp [rangeOffsets])
  have hcovers : ∀ catchType, Covers labels handler ⟨start, stop, entry, catchType⟩ := fun catchType =>
    .cons hstart (.cons hstop (.cons hentry .nil))
  unfold decodeRange
  by_cases hzero : handler.catchType = 0
  · rw [if_pos hzero]
    refine .inl ⟨⟨start, stop, entry, none⟩, ?_, hcovers none⟩
    simp only [bind, Except.bind, pure, Except.pure, labelAt, hstart, hstop, hentry]
  · rw [if_neg hzero]
    cases hname : pool.className handler.catchType with
    | error reason => exact .inr ⟨reason, rfl, hzero, rfl⟩
    | ok name =>
        refine .inl ⟨⟨start, stop, entry, some name⟩, ?_, hcovers (some name)⟩
        simp only [Except.mapError, Functor.map, Except.map, bind, Except.bind, pure, Except.pure, labelAt, hstart,
          hstop, hentry]

theorem gives_of_decodeAt {p : Piece} {result : Nat × Instr} (hcut : cut 0 raw.code [] [] = .ok (pieces, branches))
    (hlabels : ∀ o ∈ branches, ∃ label, labels.lookup o = some label) (hp : p ∈ pieces)
    (h : decodeAt pool labels p = .ok result) :
    Gives pool labels p result.2 ∧ result.2.isMarker = false ∧ result.1 = p.offset := by
  obtain ⟨found, hfound, houtcome⟩ := outcome_of_mem pool hcut hlabels hp
  obtain ⟨hdecoded, hoffset⟩ := decodeAt_eq_ok.1 h
  obtain ⟨hown, hreal, huses⟩ := houtcome.of_ok hdecoded
  exact ⟨⟨hown, found, hfound, huses⟩, hreal, hoffset⟩

theorem covers_of_decodeRange {handler : RawHandler} {block : TryBlock}
    (hlabels : ∀ o ∈ rangeOffsets handler, ∃ label, labels.lookup o = some label)
    (h : decodeRange pool labels handler = .ok block) : Covers labels handler block := by
  rcases decodeRange_cases pool hlabels with ⟨other, hother, hcovers⟩ | ⟨reason, hreason, -⟩
  · obtain rfl := Except.ok.inj (h.symm.trans hother)
    exact hcovers
  · cases h.symm.trans hreason

theorem branch_mem_referred {o : Nat} (ho : o ∈ branches) : o ∈ referred raw branches :=
  List.mem_append_left _ (List.mem_append_left _ ho)

theorem range_mem_referred {handler : RawHandler} (hhandler : handler ∈ raw.handlers) {o : Nat}
    (ho : o ∈ rangeOffsets handler) : o ∈ referred raw branches :=
  List.mem_append_left _ (List.mem_append_right _ (List.mem_flatMap.2 ⟨handler, hhandler, ho⟩))

/-- The labels of a body: one for each offset to which anything refers, in the order of the offsets. -/
theorem exists_targets (raw : RawCode) (branches : List Nat) : ∃ lines targets,
    (raw.lines.map fun p => (p.1.toNat, p.2)).mergeSort (fun a b => a.1 ≤ b.1) = lines ∧
      distinct (branches ++ raw.handlers.flatMap rangeOffsets ++ lines.map (·.1)).mergeSort [] = targets ∧
      targets.Pairwise (· < ·) ∧ ∀ o, o ∈ targets ↔ o ∈ referred raw branches := by
  refine ⟨_, _, rfl, rfl, (gathered_targets _).1, fun o => ?_⟩
  rw [(gathered_targets _).2, referred, List.mem_append, List.mem_append (s := branches ++ _)]
  refine or_congr_right ?_
  rw [((List.mergeSort_perm _ _).map Prod.fst).mem_iff, List.map_map]
  rfl

/-- A body for which every step of the decoder gives a result. -/
theorem restores_of_ok {targets : List Nat} {instrs : List (Nat × Instr)} {tries : List TryBlock}
    (hcut : cut 0 raw.code [] [] = .ok (pieces, branches)) (hsorted : targets.Pairwise (· < ·))
    (hmem : ∀ o, o ∈ targets ↔ o ∈ referred raw branches) (hinside : referred raw branches ⊆ bodyBounds raw pieces)
    (hinstrs : pieces.mapM (decodeAt pool (numbered first targets)) = .ok instrs)
    (htries : raw.handlers.mapM (decodeRange pool (numbered first targets)) = .ok tries)
    (lines : List (Nat × UInt16)) :
    Restores pool first raw pieces branches (numbered first targets)
      (withMarkers (numbered first targets) lines instrs []) tries (first + (numbered first targets).length) := by
  have hlabels : ∀ o ∈ referred raw branches, ∃ label, (numbered first targets).lookup o = some label := fun o ho =>
    exists_lookup_numbered hsorted ((hmem o).2 ho)
  have hgivesAt := fun p hp result (h : decodeAt pool (numbered first targets) p = .ok result) =>
    gives_of_decodeAt hcut (fun o ho => hlabels o (branch_mem_referred ho)) hp h
  have hgives := forall₂_of_mapM hinstrs hgivesAt
  have hcovers := forall₂_of_mapM htries fun handler hhandler block h =>
    covers_of_decodeRange (fun o ho => hlabels o (range_mem_referred hhandler ho)) h
  have hstarts : instrs.map Prod.fst = pieces.map (·.offset) :=
    (map_eq_of_forall₂ (hgives.imp fun _ _ h => h.2.2.symm)).symm
  have hkeys := map_fst_numbered first targets
  have harranged : Arranged raw.code.length (numbered first targets) instrs
      (withMarkers (numbered first targets) lines instrs []) := by
    refine arranged_withMarkers ?_ ?_ ?_ ?_ lines
    · simpa [hstarts] using (cut_eq_ok hcut).1.ascending.1
    · intro result hresult
      obtain ⟨p, hp, hdecoded⟩ := exists_of_mem_mapM hinstrs hresult
      exact (hgivesAt p hp result hdecoded).2.1
    · rwa [← hkeys, List.pairwise_map] at hsorted
    · intro p hp
      rw [hstarts]
      exact hinside ((hmem _).1 (hkeys ▸ List.mem_map_of_mem hp))
  refine ⟨?_, hcovers, fun o => ?_, fun o label hlabel => ?_, ?_, rfl, harranged.apart⟩
  · rw [harranged.filter_eq, List.forall₂_map_right_iff]
    exact hgives.imp fun _ _ h => h.1
  · refine ⟨fun ⟨label, hlabel⟩ => ?_, hlabels o⟩
    exact (hmem o).1 (hkeys ▸ List.mem_map_of_mem (mem_of_lookup hlabel))
  · rw [bodyBounds, ← hstarts]
    exact harranged.standsAt (nodup_numbered first targets) _ (mem_of_lookup hlabel)
  · rw [harranged.labelsIn_eq, map_snd_numbered, length_numbered]

/-- A body that the scan passes is refused or restored. -/
theorem refused_or_restored (pool : ConstantPool) (first : Nat) (hcut : cut 0 raw.code [] [] = .ok (pieces, branches)) :
    match decode pool first raw with
    | .error reason => RefusesBody pool raw pieces branches reason
    | .ok (code, tries, next) => ∃ labels, Restores pool first raw pieces branches labels code tries next := by
  obtain ⟨lines, targets, hlines, htargets, hsorted, hmem⟩ := exists_targets raw branches
  have hascending : (bodyBounds raw pieces).Pairwise (· < ·) := by
    simpa [bodyBounds] using (cut_eq_ok hcut).1.ascending.1
  cases houtside : firstOutside? targets (bodyBounds raw pieces) with
  | some target =>
      obtain ⟨htarget, hout⟩ := firstOutside?_eq_some hsorted hascending houtside
      rw [decode_of_outside hcut hlines htargets houtside]
      exact .target ((hmem target).1 htarget) hout
  | none =>
      have hinside : referred raw branches ⊆ bodyBounds raw pieces := fun o ho =>
        mem_of_firstOutside?_eq_none houtside o ((hmem o).2 ho)
      have hlabels : ∀ o ∈ referred raw branches, ∃ label, (numbered first targets).lookup o = some label := fun o ho =>
        exists_lookup_numbered hsorted ((hmem o).2 ho)
      rw [decode_of_inside hcut hlines htargets houtside]
      cases hinstrs : pieces.mapM (decodeAt pool (numbered first targets)) with
      | error fault =>
          obtain ⟨p, hp, hat⟩ := mapM_eq_error hinstrs
          obtain ⟨reason, hdecoded, rfl⟩ := decodeAt_eq_error hat
          obtain ⟨found, -, houtcome⟩ := outcome_of_mem pool hcut
            (fun o ho => hlabels o (branch_mem_referred ho)) hp
          exact .instr hinside hp (houtcome.of_error hdecoded)
      | ok instrs =>
          cases htries : raw.handlers.mapM (decodeRange pool (numbered first targets)) with
          | error fault =>
              obtain ⟨handler, hhandler, hat⟩ := mapM_eq_error htries
              rcases decodeRange_cases pool fun o ho => hlabels o (range_mem_referred hhandler ho) with
                ⟨block, hblock, -⟩ | ⟨reason, hreason, hne, hname⟩
              · cases hat.symm.trans hblock
              · obtain rfl := Except.error.inj (hat.symm.trans hreason)
                exact .catchType hinside hhandler hne hname
          | ok tries => exact ⟨_, restores_of_ok hcut hsorted hmem hinside hinstrs htries lines⟩

/-- The scan and the decoder agree.  The scan ends with the pieces of the code, or where it cannot pass an
instruction; after it a body is refused only for a target that is no boundary, a reference that the pool does not
resolve or a code that is not supported; otherwise it is restored with labels for all targets, and every instruction
is read from the bytes of its piece alone. -/
theorem decode_agrees_with_scan (pool : ConstantPool) (first : Nat) (raw : RawCode) :
    match cut 0 raw.code [] [] with
    | .error reason => decode pool first raw = .error reason ∧
        ∃ pieces op rest, Partitions pieces raw.code (op :: rest) ∧
          Stops (pieces.flatMap (·.bytes)).length op rest reason
    | .ok (pieces, branches) => Partitions pieces raw.code [] ∧
        match decode pool first raw with
        | .error reason => RefusesBody pool raw pieces branches reason
        | .ok (code, tries, next) => ∃ labels, Restores pool first raw pieces branches labels code tries next := by
  have hspec := cut_spec 0 raw.code [] []
  split
  · next reason hcut =>
      rw [hcut] at hspec
      obtain ⟨pieces, place, op, rest, hscans, hplace, hstops⟩ := hspec
      have hparts := hscans.partitions
      have hjoined := congrArg List.length hparts.joined
      rw [List.length_append, List.length_cons] at hjoined
      obtain rfl : place = (pieces.flatMap (·.bytes)).length := by omega
      refine ⟨?_, pieces, op, rest, hparts, hstops⟩
      rw [decode, hcut]
      rfl
  · next pieces branches hcut =>
      exact ⟨(cut_eq_ok hcut).1.partitions, refused_or_restored pool first hcut⟩

-- a branch over an instruction in a handler range that ends with the code
example : decode #[] 0
    ⟨1, 1, [Opcode.iconst0, Opcode.ifeq, 0, 4, Opcode.nop, Opcode.vreturn], [⟨0, 6, 5, 0⟩], [(0, 7)]⟩ =
      .ok ([.label ⟨0⟩, .line 7, .simple Opcode.iconst0, .jump Opcode.ifeq ⟨1⟩, .simple Opcode.nop, .label ⟨1⟩,
        .simple Opcode.vreturn, .label ⟨2⟩], [⟨⟨0⟩, ⟨2⟩, ⟨1⟩, none⟩], 3) := by
  cbv

end Reading

end Unscramble.ClassFile.Code
