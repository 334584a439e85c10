/-
Control flow: what a flow says of the method it was made from, and which instructions can be reached in it.
-/
import Mathlib.Data.List.Chain
import Unscramble.Analysis.Flow
import Unscramble.Proofs.Results
import Unscramble.Proofs.Tables

namespace Unscramble

/-- Every noted place of a label is an index at which the label stands. -/
theorem getElem?_of_mem_labelPlaces {code : List Instr} {label : Label} {index : Nat}
    (h : (label, index) ∈ labelPlaces code) : code[index]? = some (.label label) := by
  simp only [labelPlaces, List.mem_reverse, List.mem_filterMap] at h
  obtain ⟨⟨instr, place⟩, hmem, heq⟩ := h
  rw [List.mem_zipIdx_iff_getElem?] at hmem
  split at heq
  · next hlabel =>
      simp only [Option.some.injEq, Prod.mk.injEq] at hlabel heq
      rw [← heq.1, ← heq.2, ← hlabel.1, ← hlabel.2]
      exact hmem
  · simp at heq

theorem mem_of_place? {places : List (Label × Nat)} {label : Label} {index : Nat}
    (h : place? places label = some index) : (label, index) ∈ places := by
  obtain ⟨before, after, heq, _⟩ := List.lookup_eq_some_iff.1 h
  simp [heq]

theorem place?_labelPlaces {code : List Instr} {label : Label} {index : Nat}
    (h : place? (labelPlaces code) label = some index) : code[index]? = some (.label label) :=
  getElem?_of_mem_labelPlaces (mem_of_place? h)

theorem mem_labelPlaces {code : List Instr} {label : Label} {index : Nat} :
    (label, index) ∈ labelPlaces code ↔ code[index]? = some (.label label) := by
  refine ⟨getElem?_of_mem_labelPlaces, fun h => ?_⟩
  rw [labelPlaces, List.mem_reverse, List.mem_filterMap]
  exact ⟨(.label label, index), List.mem_zipIdx_iff_getElem?.2 h, rfl⟩

theorem exists_place? {code : List Instr} {label : Label} (h : .label label ∈ code) :
    ∃ index, place? (labelPlaces code) label = some index := by
  obtain ⟨index, hindex⟩ := List.mem_iff_getElem?.1 h
  cases hplace : place? (labelPlaces code) label with
  | none => exact absurd (mem_labelPlaces.2 hindex) (not_mem_of_lookup hplace index)
  | some place => exact ⟨place, rfl⟩

theorem pairwise_zipIdx (code : List Instr) : code.zipIdx.Pairwise fun a b => a.2 < b.2 := by
  rw [← List.pairwise_map (f := Prod.snd), List.zipIdx_map_snd]
  exact List.pairwise_lt_range'

theorem pairwise_labelPlaces (code : List Instr) : (labelPlaces code).Pairwise fun a b => b.2 < a.2 := by
  rw [labelPlaces, List.pairwise_reverse]
  refine (pairwise_zipIdx code).filterMap _ ?_
  rintro ⟨instr, place⟩ ⟨instr', place'⟩ hlt a ha b hb
  cases instr with
  | label l =>
      cases instr' with
      | label l' =>
          cases ha
          cases hb
          exact hlt
      | _ => cases hb
  | _ => cases ha

/-- A label has the last place at which it stands. -/
theorem place?_labelPlaces_iff {code : List Instr} {label : Label} {index : Nat} :
    place? (labelPlaces code) label = some index ↔
      code[index]? = some (.label label) ∧ ∀ other, code[other]? = some (.label label) → other ≤ index := by
  have hlast : ∀ {index}, place? (labelPlaces code) label = some index →
      ∀ other, code[other]? = some (.label label) → other ≤ index := by
    intro index h other hother
    obtain ⟨before, after, heq, hbefore⟩ := List.lookup_eq_some_iff.1 h
    have hpairwise := pairwise_labelPlaces code
    have hmem := mem_labelPlaces.2 hother
    rw [heq, List.pairwise_append, List.pairwise_cons] at hpairwise
    rw [heq, List.mem_append, List.mem_cons] at hmem
    rcases hmem with hfirst | hself | hafter
    · simpa using hbefore _ hfirst
    · exact Nat.le_of_eq (Prod.mk.inj hself).2
    · exact Nat.le_of_lt (hpairwise.2.1.1 _ hafter)
  refine ⟨fun h => ⟨place?_labelPlaces h, hlast h⟩, fun ⟨hindex, hothers⟩ => ?_⟩
  obtain ⟨place, hplace⟩ := exists_place? (List.mem_of_getElem? hindex)
  rw [hplace, Nat.le_antisymm (hothers place (place?_labelPlaces hplace)) (hlast hplace index hindex)]

/-- A label that stands at one place only has this place. -/
theorem place?_of_unique {code : List Instr} {label : Label} {index : Nat}
    (h : code[index]? = some (.label label))
    (hunique : ∀ other, code[other]? = some (.label label) → other = index) :
    place? (labelPlaces code) label = some index :=
  place?_labelPlaces_iff.2 ⟨h, fun other hother => Nat.le_of_eq (hunique other hother)⟩

/-- Every label stands at one place at most. -/
def LabelsOnce (code : List Instr) : Prop :=
  ((labelPlaces code).map Prod.fst).Nodup

instance (code : List Instr) : Decidable (LabelsOnce code) :=
  inferInstanceAs (Decidable (List.Nodup _))

theorem LabelsOnce.place?_eq_some_iff {code : List Instr} (h : LabelsOnce code) {label : Label} {index : Nat} :
    place? (labelPlaces code) label = some index ↔ code[index]? = some (.label label) := by
  rw [place?, lookup_eq_some_iff_mem h, mem_labelPlaces]

theorem place?_labelPlaces_lt {code : List Instr} {label : Label} {index : Nat}
    (h : place? (labelPlaces code) label = some index) : index < code.length :=
  (List.getElem?_eq_some_iff.1 (place?_labelPlaces h)).1

namespace Flow

/-- Execution may normally go on from one instruction to another. -/
def Edge (flow : Flow) (source target : Nat) : Prop :=
  ∃ instr effect next, flow.code[source]? = some (instr, effect) ∧
    flow.successors source instr effect = .ok next ∧ target ∈ next

/-- Execution may come to an instruction: it is the first one, or it follows one to which execution may
come, or it handles the exceptions of such an instruction. -/
inductive Reaches (flow : Flow) : Nat → Prop where
  | entry : Reaches flow 0
  | edge {source target : Nat} : Reaches flow source → flow.Edge source target →
      Reaches flow target
  | handler {source : Nat} {range : HandlerRange} : Reaches flow source → range ∈ flow.handlers →
      range.covers source = true → Reaches flow range.handler

theorem target_eq_ok {flow : Flow} {label : Label} {place : Nat} :
    flow.target label = .ok place ↔ place? flow.places label = some place := by
  unfold target
  cases place? flow.places label <;> simp

theorem withEffects_ok {code : List Instr} {paired : List (Instr × Effect)}
    (h : withEffects code = .ok paired) :
    List.Forall₂ (fun instr pair => pair.1 = instr ∧ Effect.ofInstr instr = .ok pair.2) code
      paired := by
  have hpairs := mapM_eq_ok.1 h
  have hcode : code = code.zipIdx.map Prod.fst := by simp
  rw [hcode, List.forall₂_map_left_iff]
  refine hpairs.imp ?_
  rintro ⟨instr, index⟩ pair hpair
  dsimp only at hpair ⊢
  split at hpair
  · next heffect =>
      rw [← Except.ok.inj hpair]
      exact ⟨rfl, heffect⟩
  · simp at hpair

theorem handlerRanges_ok {places : List (Label × Nat)} {tries : List TryBlock}
    {handlers : List HandlerRange} (h : handlerRanges places tries = .ok handlers) :
    List.Forall₂ (fun block range => place? places block.start = some range.start ∧
      place? places block.stop = some range.stop ∧
      place? places block.handler = some range.handler) tries handlers := by
  refine (mapM_eq_ok.1 h).imp ?_
  intro block range hrange
  have hfind : ∀ label index, handlerRanges.find places label = .ok index →
      place? places label = some index := by
    intro label index hindex
    unfold handlerRanges.find at hindex
    split at hindex
    · next hplace => rw [hplace, Except.ok.inj hindex]
    · simp at hindex
  obtain ⟨start, hstart, hrange⟩ := bind_eq_ok.1 hrange
  obtain ⟨stop, hstop, hrange⟩ := bind_eq_ok.1 hrange
  obtain ⟨handler, hhandler, hrange⟩ := bind_eq_ok.1 hrange
  rw [← Except.ok.inj hrange]
  exact ⟨hfind _ _ hstart, hfind _ _ hstop, hfind _ _ hhandler⟩

/-- A method has a flow if its handler ranges have places and its instructions have effects. -/
theorem exists_ofMethod {m : MethodDecl}
    (hlabels : ∀ block ∈ m.tries, ∀ label ∈ [block.start, block.stop, block.handler], .label label ∈ m.code)
    (heffects : ∀ instr ∈ m.code, ∃ effect, Effect.ofInstr instr = .ok effect) :
    ∃ flow, ofMethod m = .ok flow := by
  have hhandlers : ∃ handlers, handlerRanges (labelPlaces m.code) m.tries = .ok handlers := by
    refine exists_mapM_eq_ok fun block hblock => ?_
    obtain ⟨start, hstart⟩ := exists_place? (hlabels block hblock block.start (by simp))
    obtain ⟨stop, hstop⟩ := exists_place? (hlabels block hblock block.stop (by simp))
    obtain ⟨handler, hhandler⟩ := exists_place? (hlabels block hblock block.handler (by simp))
    exact ⟨⟨start, stop, handler⟩, by simp [handlerRanges.find, hstart, hstop, hhandler, bind, Except.bind, pure,
      Except.pure]⟩
  have hpaired : ∃ paired, withEffects m.code = .ok paired := by
    refine exists_mapM_eq_ok fun (instr, index) hmem => ?_
    obtain ⟨effect, heffect⟩ := heffects instr (List.fst_mem_of_mem_zipIdx hmem)
    exact ⟨(instr, effect), by simp [heffect]⟩
  obtain ⟨handlers, hhandlers⟩ := hhandlers
  obtain ⟨paired, hpaired⟩ := hpaired
  exact ⟨_, bind_eq_ok.2 ⟨handlers, hhandlers, bind_eq_ok.2 ⟨paired, hpaired, rfl⟩⟩⟩

/-- The parts of the flow of a method. -/
structure Describes (flow : Flow) (m : MethodDecl) : Prop where
  places : flow.places = labelPlaces m.code
  code : List.Forall₂ (fun instr pair => pair.1 = instr ∧ Effect.ofInstr instr = .ok pair.2) m.code
    flow.code.toList
  handlers : List.Forall₂ (fun block range =>
      place? (labelPlaces m.code) block.start = some range.start ∧
      place? (labelPlaces m.code) block.stop = some range.stop ∧
      place? (labelPlaces m.code) block.handler = some range.handler) m.tries flow.handlers

theorem ofMethod_describes {m : MethodDecl} {flow : Flow} (h : ofMethod m = .ok flow) :
    flow.Describes m := by
  obtain ⟨handlers, hhandlers, h⟩ := bind_eq_ok.1 h
  obtain ⟨paired, hpaired, h⟩ := bind_eq_ok.1 h
  rw [← Except.ok.inj h]
  exact ⟨rfl, by simpa using withEffects_ok hpaired, handlerRanges_ok hhandlers⟩

namespace Describes

variable {flow : Flow} {m : MethodDecl}

theorem size_eq (h : flow.Describes m) : flow.code.size = m.code.length := by
  simpa using h.code.length_eq.symm

theorem exists_effect (h : flow.Describes m) {index : Nat} {instr : Instr}
    (hinstr : m.code[index]? = some instr) :
    ∃ effect, flow.code[index]? = some (instr, effect) ∧ Effect.ofInstr instr = .ok effect := by
  obtain ⟨hindex, rfl⟩ := List.getElem?_eq_some_iff.1 hinstr
  have hlength := h.code.length_eq
  obtain ⟨hfst, heffect⟩ := (List.forall₂_iff_get.1 h.code).2 index hindex (by omega)
  refine ⟨(flow.code.toList.get ⟨index, by omega⟩).2, ?_, heffect⟩
  rw [← Array.getElem?_toList, List.getElem?_eq_getElem (by omega)]
  exact congrArg some (Prod.ext hfst rfl)

/-- An instruction of the flow is that of the method. -/
theorem getElem?_code (h : flow.Describes m) {index : Nat} {instr : Instr} {effect : Effect}
    (hcode : flow.code[index]? = some (instr, effect)) : m.code[index]? = some instr := by
  have hindex : index < m.code.length := h.size_eq ▸ (Array.getElem?_eq_some_iff.1 hcode).1
  obtain ⟨effect', hcode', -⟩ := h.exists_effect (List.getElem?_eq_getElem hindex)
  rw [List.getElem?_eq_getElem hindex, (Prod.mk.inj (Option.some.inj (hcode'.symm.trans hcode))).1]

theorem exists_range (h : flow.Describes m) {block : TryBlock} (hblock : block ∈ m.tries) :
    ∃ range ∈ flow.handlers, place? (labelPlaces m.code) block.start = some range.start ∧
      place? (labelPlaces m.code) block.stop = some range.stop ∧
      place? (labelPlaces m.code) block.handler = some range.handler := by
  obtain ⟨index, hindex, rfl⟩ := List.mem_iff_getElem.1 hblock
  have hlength := h.handlers.length_eq
  exact ⟨flow.handlers.get ⟨index, by omega⟩, List.get_mem _ _,
    (List.forall₂_iff_get.1 h.handlers).2 index hindex (by omega)⟩

theorem handler_lt (h : flow.Describes m) {range : HandlerRange} (hrange : range ∈ flow.handlers) :
    range.handler < flow.code.size := by
  obtain ⟨index, hindex, rfl⟩ := List.mem_iff_getElem.1 hrange
  have hlength := h.handlers.length_eq
  have hplace := (List.forall₂_iff_get.1 h.handlers).2 index (by omega) hindex
  rw [h.size_eq]
  exact place?_labelPlaces_lt hplace.2.2

end Describes

end Flow

/-- The flow of some code, as far as the places of labels go. -/
def Flow.ofLabels (code : List Instr) : Flow :=
  ⟨#[], labelPlaces code, []⟩

/-- Execution may normally go on from one instruction of some code to another. -/
def Goes (code : List Instr) (source target : Nat) : Prop :=
  ∃ instr effect next, code[source]? = some instr ∧ Effect.ofInstr instr = .ok effect ∧
    (Flow.ofLabels code).successors source instr effect = .ok next ∧ target ∈ next

/-- A control path of some kind that starts at an index. -/
def IsPath (goes : Nat → Nat → Prop) (start : Nat) (path : List Nat) : Prop :=
  path.head? = some start ∧ path.IsChain goes

section Edges

variable {code : List Instr} {source target : Nat} {l : Label}

theorem isPath_cons {goes : Nat → Nat → Prop} {start : Nat} {path : List Nat} (h : IsPath goes start path) :
    path = [start] ∨ ∃ next rest, path = start :: next :: rest ∧ goes start next ∧ IsPath goes next (next :: rest) := by
  obtain ⟨hhead, hchain⟩ := h
  cases path with
  | nil => cases hhead
  | cons first rest =>
      obtain rfl := Option.some.inj hhead
      cases rest with
      | nil => exact .inl rfl
      | cons next rest =>
          obtain ⟨hstep, hrest⟩ := List.isChain_cons_cons.1 hchain
          exact .inr ⟨next, rest, rfl, hstep, rfl, hrest⟩

/-- Execution goes on to the next instruction or to a label. -/
theorem Goes.cases (h : Goes code source target) :
    target = source + 1 ∨ ∃ l, place? (labelPlaces code) l = some target := by
  obtain ⟨instr, effect, next, hinstr, heffect, hnext, htarget⟩ := h
  have hswitch : ∀ {labels : List Label}, labels.mapM (Flow.ofLabels code).target = .ok next →
      ∃ l, place? (labelPlaces code) l = some target := by
    intro labels hlabels
    obtain ⟨l, -, hl⟩ := exists_of_mem_mapM hlabels htarget
    exact ⟨l, Flow.target_eq_ok.1 hl⟩
  unfold Flow.successors at hnext
  split at hnext
  · next op l =>
      obtain ⟨place, hplace, hnext⟩ := bind_eq_ok.1 hnext
      obtain rfl := Except.ok.inj hnext
      have hfound := Flow.target_eq_ok.1 hplace
      split at htarget
      · exact .inr ⟨l, List.mem_singleton.1 htarget ▸ hfound⟩
      · rcases List.mem_cons.1 htarget with hnext | htarget
        · exact .inl hnext
        · exact .inr ⟨l, List.mem_singleton.1 htarget ▸ hfound⟩
  · exact .inr (hswitch hnext)
  · exact .inr (hswitch hnext)
  · split at hnext
    · obtain rfl := Except.ok.inj hnext
      cases htarget
    · obtain rfl := Except.ok.inj hnext
      cases htarget
    · obtain rfl := Except.ok.inj hnext
      exact .inl (List.mem_singleton.1 htarget)

theorem Goes.lt_length (h : Goes code source target) : source < code.length := by
  obtain ⟨instr, -, -, hinstr, -⟩ := h
  exact (List.getElem?_eq_some_iff.1 hinstr).1

theorem Goes.le_length (h : Goes code source target) : target ≤ code.length := by
  rcases h.cases with rfl | ⟨l, hplace⟩
  · exact h.lt_length
  · exact Nat.le_of_lt (place?_labelPlaces_lt hplace)

theorem goes_iff {instr : Instr} {effect : Effect} {next : List Nat} (hinstr : code[source]? = some instr)
    (heffect : Effect.ofInstr instr = .ok effect)
    (hnext : (Flow.ofLabels code).successors source instr effect = .ok next) :
    Goes code source target ↔ target ∈ next := by
  constructor
  · rintro ⟨instr', effect', next', hinstr', heffect', hnext', htarget⟩
    obtain rfl := Option.some.inj (hinstr.symm.trans hinstr')
    obtain rfl := Except.ok.inj (heffect.symm.trans heffect')
    obtain rfl := Except.ok.inj (hnext.symm.trans hnext')
    exact htarget
  · exact fun htarget => ⟨instr, effect, next, hinstr, heffect, hnext, htarget⟩

/-- A plain jump goes to its target only. -/
theorem goes_goto_iff (h : code[source]? = some (.jump Opcode.goto l)) :
    Goes code source target ↔ place? (labelPlaces code) l = some target := by
  constructor
  · rintro ⟨instr, effect, next, hinstr, -, hnext, htarget⟩
    obtain rfl := Option.some.inj (h.symm.trans hinstr)
    obtain ⟨place, hplace, hnext⟩ := bind_eq_ok.1 hnext
    obtain rfl := Except.ok.inj hnext
    obtain rfl := List.mem_singleton.1 htarget
    exact Flow.target_eq_ok.1 hplace
  · intro hplace
    refine ⟨_, _, [target], h, rfl, ?_, List.mem_singleton_self target⟩
    exact bind_eq_ok.2 ⟨target, Flow.target_eq_ok.2 hplace, rfl⟩

end Edges

end Unscramble
