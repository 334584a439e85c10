/-
Code of which everything can be reached.  Removing what cannot be reached keeps every label that is used: a label to
which an instruction jumps can be reached if the instruction can, and the labels that handler ranges need stay.  What
stays keeps its order, so the places of labels, the ranges of handlers and what follows an instruction move along, and
whatever could be reached before can be reached after.
-/
import Mathlib.Data.List.NodupEquivFin
import Unscramble.Proofs.Labels
import Unscramble.Proofs.Reordering

namespace Unscramble

/-- An instruction that can go on can go on to every label that it uses. -/
theorem Flow.exists_target {flow : Flow} {index : Nat} {instr : Instr} {effect : Effect} {next : List Nat} {l : Label}
    (h : flow.successors index instr effect = .ok next) (hl : l ∈ instr.targets) :
    ∃ place ∈ next, flow.target l = .ok place := by
  cases instr with
  | jump op label =>
      obtain ⟨place, hplace, h⟩ := bind_eq_ok.1 h
      obtain rfl := Except.ok.inj h
      obtain rfl := List.mem_singleton.1 hl
      exact ⟨place, by split <;> simp, hplace⟩
  | tableSwitch low high fallback targets => exact exists_mem_of_mapM h hl
  | lookupSwitch fallback keys targets => exact exists_mem_of_mapM h hl
  | _ => cases hl

theorem Flow.Describes.exists_block {flow : Flow} {m : MethodDecl} (h : flow.Describes m) {range : HandlerRange}
    (hrange : range ∈ flow.handlers) : ∃ block ∈ m.tries, place? (labelPlaces m.code) block.start = some range.start ∧
      place? (labelPlaces m.code) block.stop = some range.stop ∧
      place? (labelPlaces m.code) block.handler = some range.handler := by
  obtain ⟨index, hindex, rfl⟩ := List.mem_iff_getElem.1 hrange
  have hlength := h.handlers.length_eq
  exact ⟨m.tries.get ⟨index, by omega⟩, List.get_mem _ _,
    (List.forall₂_iff_get.1 h.handlers).2 index (by omega) hindex⟩

section Ascending

variable {layout : List Nat} (h : layout.Pairwise (· < ·))

include h

theorem idxOf_lt_idxOf_iff {a b : Nat} (ha : a ∈ layout) (hb : b ∈ layout) :
    layout.idxOf a < layout.idxOf b ↔ a < b :=
  (h.sortedLT.getIso layout).symm.lt_iff_lt (x := ⟨a, ha⟩) (y := ⟨b, hb⟩)

theorem idxOf_le_idxOf_iff {a b : Nat} (ha : a ∈ layout) (hb : b ∈ layout) :
    layout.idxOf a ≤ layout.idxOf b ↔ a ≤ b :=
  not_lt.symm.trans ((idxOf_lt_idxOf_iff h hb ha).not.trans not_lt)

theorem idxOf_zero (hzero : 0 ∈ layout) : layout.idxOf 0 = 0 := by
  cases layout with
  | nil => cases hzero
  | cons first rest =>
      rcases List.mem_cons.1 hzero with rfl | hrest
      · exact List.idxOf_cons_self
      · exact absurd ((List.pairwise_cons.1 h).1 0 hrest) (Nat.not_lt_zero first)

/-- Nothing can stand between two numbers that follow each other. -/
theorem idxOf_succ {a : Nat} (ha : a ∈ layout) (hsucc : a + 1 ∈ layout) :
    layout.idxOf (a + 1) = layout.idxOf a + 1 := by
  have hlt := (idxOf_lt_idxOf_iff h ha hsucc).2 (Nat.lt_succ_self a)
  have hlength := List.idxOf_lt_length_of_mem hsucc
  by_contra hne
  have hplace : layout.idxOf a + 1 < layout.length := by omega
  have hbetween := List.getElem_mem hplace
  have hidx := h.nodup.idxOf_getElem _ hplace
  have hafter := (idxOf_lt_idxOf_iff h ha hbetween).1 (by omega)
  have hbefore := (idxOf_lt_idxOf_iff h hbetween hsucc).1 (by omega)
  omega

theorem covers_idxOf {range range' : HandlerRange} {index : Nat} (hstart : range.start ∈ layout)
    (hstop : range.stop ∈ layout) (hindex : index ∈ layout) (hstart' : range'.start = layout.idxOf range.start)
    (hstop' : range'.stop = layout.idxOf range.stop) : range'.covers (layout.idxOf index) = range.covers index := by
  simp only [HandlerRange.covers, hstart', hstop', idxOf_le_idxOf_iff h hstart hindex,
    idxOf_lt_idxOf_iff h hindex hstop]

/-- A label whose last place is listed keeps it, if nothing changes its order. -/
theorem place?_of_ascending {code code' : List Instr} (hcode : code'.map some = layout.map (code[·]?)) {label : Label}
    {place : Nat} (hmem : place ∈ layout) (hplace : place? (labelPlaces code) label = some place) :
    place? (labelPlaces code') label = some (layout.idxOf place) := by
  obtain ⟨hlabel, hlast⟩ := place?_labelPlaces_iff.1 hplace
  refine place?_labelPlaces_iff.2 ⟨(getElem?_idxOf_of_layout hcode hmem).trans hlabel, fun other hother => ?_⟩
  rw [getElem?_of_layout hcode] at hother
  obtain ⟨old, hold, hlabel'⟩ := Option.bind_eq_some_iff.1 hother
  obtain ⟨hlt, rfl⟩ := List.getElem?_eq_some_iff.1 hold
  have hle := (idxOf_le_idxOf_iff h (List.getElem_mem hlt) hmem).2 (hlast _ hlabel')
  rwa [h.nodup.idxOf_getElem other hlt] at hle

end Ascending

namespace DeadCode

variable {frames : Array (Option (Frame Kind))} {m : MethodDecl} {flow : Flow} {entry : Frame Kind}
  {edges : List (Nat × Nat)}

theorem reached_iff {index : Nat} : reached frames index = true ↔ ∃ frame, frames[index]? = some (some frame) := by
  unfold reached
  rcases frames[index]? with _ | _ | frame <;> simp

/-- The places of the instructions that stay. -/
def kept (frames : Array (Option (Frame Kind))) (m : MethodDecl) : List Nat :=
  (m.code.zipIdx.filter (stays frames (pinned (liveTries frames m)))).map Prod.snd

theorem mem_kept {index : Nat} : index ∈ kept frames m ↔
    ∃ instr, m.code[index]? = some instr ∧ stays frames (pinned (liveTries frames m)) (instr, index) = true := by
  simp [kept, List.mem_zipIdx_iff_getElem?]

theorem mem_code_prune {instr : Instr} : instr ∈ (prune frames m).1.code ↔
    ∃ index, m.code[index]? = some instr ∧ stays frames (pinned (liveTries frames m)) (instr, index) = true := by
  simp [prune, List.mem_zipIdx_iff_getElem?]

/-- What is left keeps its order. -/
theorem ascending_kept (frames : Array (Option (Frame Kind))) (m : MethodDecl) :
    (kept frames m).Pairwise (· < ·) :=
  List.pairwise_map.2 ((pairwise_zipIdx m.code).filter _)

/-- What is left stands at the places that stay. -/
theorem code_prune_map_some (frames : Array (Option (Frame Kind))) (m : MethodDecl) :
    (prune frames m).1.code.map some = (kept frames m).map (m.code[·]?) := by
  simp only [prune, kept, List.map_map]
  refine List.map_congr_left fun entry hentry => ?_
  exact (List.mem_zipIdx_iff_getElem?.1 (List.mem_filter.1 hentry).1).symm

theorem code_prune_sublist (frames : Array (Option (Frame Kind))) (m : MethodDecl) :
    (prune frames m).1.code.Sublist m.code := by
  have hsublist := (List.filter_sublist (p := stays frames (pinned (liveTries frames m)))
    (l := m.code.zipIdx)).map Prod.fst
  rwa [List.zipIdx_map_fst] at hsublist

theorem mem_liveTries {block : TryBlock} : block ∈ liveTries frames m ↔ block ∈ m.tries ∧
    ∃ place, place? (labelPlaces m.code) block.handler = some place ∧ reached frames place = true := by
  simp [liveTries, Option.any_eq_true]

/-- The labels of a range that stays do so, too. -/
theorem label_mem_kept {block : TryBlock} {l : Label} {place : Nat} (hblock : block ∈ liveTries frames m)
    (hl : l ∈ [block.start, block.stop, block.handler]) (hplace : place? (labelPlaces m.code) l = some place) :
    place ∈ kept frames m := by
  have hpinned : l ∈ pinned (liveTries frames m) := List.mem_flatMap.2 ⟨block, hblock, hl⟩
  exact mem_kept.2 ⟨.label l, place?_labelPlaces hplace,
    Bool.or_eq_true_iff.2 (.inr (by simpa [isOneOf] using hpinned))⟩

theorem place?_prune {l : Label} {place : Nat} (hmem : place ∈ kept frames m)
    (hplace : place? (labelPlaces m.code) l = some place) :
    place? (labelPlaces (prune frames m).1.code) l = some ((kept frames m).idxOf place) :=
  place?_of_ascending (ascending_kept frames m) (code_prune_map_some frames m) hmem hplace

/-- Removing what cannot be reached keeps all labels that are still used. -/
theorem labelsClosed_prune (hm : m.LabelsClosed) (hframes : (analyze Domain.kinds m).result = .ok frames) :
    (prune frames m).1.LabelsClosed where
  once := by
    rw [labelsOnce_iff]
    exact (labelsOnce_iff.1 hm.once).sublist ((code_prune_sublist frames m).filterMap _)
  placed := by
    intro l hl
    rw [mem_labelsIn, mem_code_prune]
    rcases MethodDecl.mem_usedLabels.1 hl with ⟨instr, hinstr, htarget⟩ | ⟨block, hblock, hused⟩
    · obtain ⟨index, hindex, hstays⟩ := mem_code_prune.1 hinstr
      -- labels jump nowhere, so the instruction stays because it was reached
      have hreached : reached frames index = true := by
        rcases Bool.or_eq_true_iff.1 hstays with hreached | hlabel
        · exact hreached
        · cases instr <;> simp_all [isOneOf, Instr.targets]
      have hcode : m.code ≠ [] := List.ne_nil_of_mem (List.mem_of_getElem? hindex)
      obtain ⟨flow, entry, hflow, -, hcomplete⟩ := Analysis.isFixpoint_of_lawful Domain.kinds_lawful hcode hframes
      have hdescribes := Flow.ofMethod_describes hflow
      have hreach := (hcomplete.reached index).1 (reached_iff.1 hreached)
      obtain ⟨instr', effect, next, hinstr', hnext⟩ := hcomplete.exists_next hreach
      obtain ⟨effect', heffect', -⟩ := hdescribes.exists_effect hindex
      obtain ⟨rfl, -⟩ := Prod.mk.inj (Option.some.inj (heffect'.symm.trans hinstr'))
      obtain ⟨place, hplace, htarget⟩ := Flow.exists_target hnext htarget
      rw [Flow.target_eq_ok, hdescribes.places] at htarget
      have hthere := hreach.edge ⟨instr, effect, next, hinstr', hnext, hplace⟩
      exact ⟨place, place?_labelPlaces htarget,
        Bool.or_eq_true_iff.2 (.inl (reached_iff.2 ((hcomplete.reached place).2 hthere)))⟩
    · have hlabel : .label l ∈ m.code :=
        mem_labelsIn.1 (hm.placed (MethodDecl.mem_usedLabels.2 (.inr ⟨block, List.mem_of_mem_filter hblock, hused⟩)))
      obtain ⟨place, hplace⟩ := List.mem_iff_getElem?.1 hlabel
      have hpinned : l ∈ pinned (liveTries frames m) :=
        List.mem_flatMap.2 ⟨block, hblock, by simpa using hused⟩
      exact ⟨place, hplace, Bool.or_eq_true_iff.2 (.inr (by simpa [isOneOf] using hpinned))⟩

section Reached

variable (h : Analysis.Complete Domain.kinds flow entry frames edges)

include h

/-- A range stays if its handler can be reached. -/
theorem mem_liveTries_iff {block : TryBlock} {place : Nat}
    (hplace : place? (labelPlaces m.code) block.handler = some place) :
    block ∈ liveTries frames m ↔ block ∈ m.tries ∧ flow.Reaches place := by
  simp [mem_liveTries, hplace, reached_iff, h.reached]

variable (hflow : flow.Describes m)

include hflow

theorem mem_kept_of_reaches {index : Nat} (hreach : flow.Reaches index) : index ∈ kept frames m := by
  have hlt : index < m.code.length := hflow.size_eq ▸ h.lt_size hreach
  exact mem_kept.2 ⟨_, List.getElem?_eq_getElem hlt,
    Bool.or_eq_true_iff.2 (.inl (reached_iff.2 ((h.reached index).2 hreach)))⟩

variable {flow' : Flow} (hflow' : flow'.Describes (prune frames m).1)

include hflow'

/-- An instruction that can be reached goes on to the new places of its successors. -/
theorem successors_prune {index : Nat} (hreach : flow.Reaches index) : ∃ instr effect next,
    flow.code[index]? = some (instr, effect) ∧ flow'.code[(kept frames m).idxOf index]? = some (instr, effect) ∧
      flow.successors index instr effect = .ok next ∧
      flow'.successors ((kept frames m).idxOf index) instr effect = .ok (next.map (kept frames m).idxOf) := by
  obtain ⟨instr, effect, next, hinstr, hnext⟩ := h.exists_next hreach
  have hindex := mem_kept_of_reaches h hflow hreach
  have hmem : ∀ target ∈ next, target ∈ kept frames m := fun target htarget =>
    mem_kept_of_reaches h hflow (hreach.edge ⟨instr, effect, next, hinstr, hnext, htarget⟩)
  obtain ⟨hinstr', hnext'⟩ := Flow.successors_of_layout hflow hflow' (code_prune_map_some frames m)
    place?_prune hindex hinstr hnext hmem
    (fun hfollowing => idxOf_succ (ascending_kept frames m) hindex (hmem _ hfollowing))
  exact ⟨instr, effect, next, hinstr, hinstr', hnext, hnext'⟩

/-- What could be reached before can still be reached. -/
theorem reaches_prune {index : Nat} (hreach : flow.Reaches index) : flow'.Reaches ((kept frames m).idxOf index) := by
  induction hreach with
  | entry =>
      rw [idxOf_zero (ascending_kept frames m) (mem_kept_of_reaches h hflow .entry)]
      exact .entry
  | @edge source target hsource hedge ih =>
      obtain ⟨instr, effect, next, hinstr, hnext, htarget⟩ := hedge
      obtain ⟨instr', effect', next', hcode, hcode', hnext', hmoved⟩ := successors_prune h hflow hflow' hsource
      obtain ⟨rfl, rfl⟩ := Prod.mk.inj (Option.some.inj (hinstr.symm.trans hcode))
      obtain rfl := Except.ok.inj (hnext.symm.trans hnext')
      exact ih.edge ⟨instr, effect, _, hcode', hmoved, List.mem_map_of_mem htarget⟩
  | @handler source range hsource hrange hcovers ih =>
      obtain ⟨block, hblock, hstart, hstop, hhandler⟩ := hflow.exists_block hrange
      have hlive : block ∈ liveTries frames m :=
        (mem_liveTries_iff h hhandler).2 ⟨hblock, hsource.handler hrange hcovers⟩
      have hstartKept := label_mem_kept hlive (by simp) hstart
      have hstopKept := label_mem_kept hlive (by simp) hstop
      obtain ⟨range', hrange', hstart', hstop', hhandler'⟩ := hflow'.exists_range hlive
      have hcovers' := covers_idxOf (ascending_kept frames m) hstartKept hstopKept (mem_kept_of_reaches h hflow hsource)
        (Option.some.inj (hstart'.symm.trans (place?_prune hstartKept hstart)))
        (Option.some.inj (hstop'.symm.trans (place?_prune hstopKept hstop)))
      have hplace := place?_prune (label_mem_kept hlive (by simp) hhandler) hhandler
      rw [← Option.some.inj (hhandler'.symm.trans hplace)]
      exact ih.handler hrange' (hcovers'.trans hcovers)

end Reached

end DeadCode

namespace MethodDecl

variable {m m' : MethodDecl}

/-- A method without handlers of which blocks can be made has no code that cannot be reached. -/
def Trimmed (m : MethodDecl) : Prop :=
  m.tries = [] → ∀ g, BlockGraph.build m = .ok g → ∀ flow, Flow.ofMethod m = .ok flow →
    ∀ index < m.code.length, flow.Reaches index

theorem removeDeadCode_eq_ok {count : Nat} (h : m.removeDeadCode = .ok (m', count)) :
    ∃ frames, (analyze Domain.kinds m).result = .ok frames ∧ (DeadCode.prune frames m).1 = m' := by
  obtain ⟨frames, hframes, heq⟩ := map_eq_ok.1 h
  exact ⟨frames, hframes, congrArg Prod.fst heq⟩

theorem labelsClosed_removeDeadCode {count : Nat} (hm : m.LabelsClosed)
    (h : m.removeDeadCode = .ok (m', count)) : m'.LabelsClosed := by
  obtain ⟨frames, hframes, rfl⟩ := removeDeadCode_eq_ok h
  exact DeadCode.labelsClosed_prune hm hframes

theorem trimmed_of_hasCode_eq_false (h : m.hasCode = false) : m.Trimmed := by
  have hcode : m.code = [] := by simpa [hasCode] using h
  intro _ _ _ _ _ index hindex
  simp [hcode] at hindex

/-- Blocks need the analysis that tells what can be reached. -/
theorem trimmed_of_removeDeadCode_eq_error {reason : AnalysisFault} (h : m.removeDeadCode = .error reason) :
    m.Trimmed := by
  intro _ g hbuild
  cases hresult : (analyze Domain.kinds m).result with
  | error reason => simp [BlockGraph.build, hresult] at hbuild
  | ok frames => simp [removeDeadCode, hresult, Except.map] at h

theorem trimmed_removeDeadCode {count : Nat} (h : m.removeDeadCode = .ok (m', count)) : m'.Trimmed := by
  obtain ⟨frames, hframes, rfl⟩ := removeDeadCode_eq_ok h
  intro htries _ _ flow' hflow' index' hindex'
  have hlive : DeadCode.liveTries frames m = [] := htries
  have hcode : m.code ≠ [] := by
    rintro hnil
    have hsublist := DeadCode.code_prune_sublist frames m
    rw [hnil, List.sublist_nil] at hsublist
    simp [hsublist] at hindex'
  obtain ⟨flow, entry, hflow, -, hcomplete⟩ := Analysis.isFixpoint_of_lawful Domain.kinds_lawful hcode hframes
  have hlength := congrArg List.length (DeadCode.code_prune_map_some frames m)
  simp only [List.length_map] at hlength
  rw [hlength] at hindex'
  -- no label is needed, so the instruction has stayed because it was reached
  obtain ⟨instr, -, hstays⟩ := DeadCode.mem_kept.1 (List.getElem_mem hindex')
  have hreached : DeadCode.reached frames (DeadCode.kept frames m)[index'] = true := by
    cases instr <;> simpa [hlive, DeadCode.stays, DeadCode.isOneOf, DeadCode.pinned] using hstays
  have hreach := (hcomplete.reached _).1 (DeadCode.reached_iff.1 hreached)
  have hreach' :=
    DeadCode.reaches_prune hcomplete (Flow.ofMethod_describes hflow) (Flow.ofMethod_describes hflow') hreach
  rwa [(DeadCode.ascending_kept frames m).nodup.idxOf_getElem index' hindex'] at hreach'

/-- Execution order keeps all labels of a method of which everything can be reached. -/
theorem labelsClosed_reorder {g : BlockGraph} (hm : m.LabelsClosed) (htrimmed : m.Trimmed) (hcode : m.code ≠ [])
    (htries : m.tries = []) (hbuild : BlockGraph.build m = .ok g) :
    { m with code := g.reorder m.code }.LabelsClosed := by
  obtain ⟨flow, hflow, hfollows⟩ := BlockGraph.build_follows hcode hbuild
  have hhandlers : flow.handlers = [] := by simpa [htries] using (Flow.ofMethod_describes hflow).handlers
  have hperm := hfollows.perm_reorder hhandlers (htrimmed htries g hbuild flow hflow)
  exact hm.withCode (hperm.filterMap _) fun instr hinstr l hl => ⟨instr, hperm.mem_iff.1 hinstr, hl⟩

end MethodDecl

end Unscramble
