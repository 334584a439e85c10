/-
Finality of settled fields.  A round of the solver turns every assignment with a settled side into a candidate for the
other side, so the assignments of a field are used up right after it was settled.  Unless one of them leads from the
field back to itself, no candidate for the field comes up again, and its decoder stays.
-/
import Mathlib.Data.List.Chain
import Unscramble.Proofs.Solving

namespace Unscramble

theorem Number.exists_inverse {n : Number} (h : n.isMultiplier = true) :
    ∃ m, n.inverse = .ok m ∧ m.isMultiplier = true := by
  obtain ⟨m, hm, hne⟩ := isMultiplier_iff.1 h
  exact ⟨m, inverse_eq_ok.2 hm, isMultiplier_iff.2 ⟨n, inverse?_symm hm, hne.symm⟩⟩

namespace Multiplier

section Choice

variable {candidates : List Candidate} {c : Candidate} {field : String}

theorem Candidate.exists_decoder (h : c.value.isMultiplier = true) :
    ∃ d, c.decoder = .ok d ∧ d.isMultiplier = true := by
  unfold decoder
  split
  · exact ⟨c.value, rfl, h⟩
  · exact Number.exists_inverse h

theorem Candidate.exists_isMultiple (product : Candidate) (h : c.value.isMultiplier = true) :
    ∃ answer, product.isMultiple c = .ok answer := by
  obtain ⟨inverse, hinverse, _⟩ := Number.exists_inverse h
  unfold isMultiple quotient
  split
  · exact ⟨_, map_eq_ok.2 ⟨_, map_eq_ok.2 ⟨inverse, hinverse, rfl⟩, rfl⟩⟩
  · exact ⟨_, rfl⟩

theorem exists_dividesAll (products : List Candidate) (h : c.value.isMultiplier = true) :
    ∃ answer, dividesAll c products = .ok answer :=
  exists_dividesAll_of_isMultiple fun product _ => Candidate.exists_isMultiple product h

/-- Candidates that are multipliers agree on a multiplier, or on nothing. -/
theorem exists_agreed (h : ∀ c ∈ candidates, c.value.isMultiplier = true) :
    ∃ decoder?, agreed candidates = .ok decoder? ∧ ∀ d, decoder? = some d → d.isMultiplier = true := by
  have hall : ∀ c ∈ distinct candidates, c.value.isMultiplier = true :=
    fun c hc => h c (mem_distinct.1 hc)
  unfold agreed
  split
  · next single hsingle =>
      obtain ⟨d, hd, hmultiplier⟩ := Candidate.exists_decoder (hall single (by simp [hsingle]))
      refine ⟨some d, by rw [hd]; rfl, ?_⟩
      rintro _ ⟨⟩
      exact hmultiplier
  · obtain ⟨decoded, hdecoded⟩ := exists_mapM_eq_ok
      (f := fun c : Candidate => (do pure (c, ← c.decoder) : Except NotInvertible (Candidate × Number)))
      fun c hc => by
        obtain ⟨d, hd, _⟩ := Candidate.exists_decoder (hall c hc)
        exact ⟨(c, d), bind_eq_ok.2 ⟨d, hd, rfl⟩⟩
    have hmultiplier : ∀ entry ∈ decoded, entry.1 ∈ distinct candidates ∧ entry.2.isMultiplier = true := by
      intro entry hentry
      obtain ⟨c, hc, hpair⟩ := exists_of_mem_mapM hdecoded hentry
      obtain ⟨d, hd, heq⟩ := bind_eq_ok.1 hpair
      obtain rfl := Except.ok.inj heq
      obtain ⟨_, hd', hmultiplier⟩ := Candidate.exists_decoder (hall c hc)
      obtain rfl := Except.ok.inj (hd.symm.trans hd')
      exact ⟨hc, hmultiplier⟩
    rw [hdecoded]
    simp only [bind, Except.bind]
    split
    · next entry d hpaired =>
        refine ⟨some d, rfl, ?_⟩
        rintro _ ⟨⟩
        exact (hmultiplier _ (List.mem_of_find?_eq_some hpaired)).2
    · obtain ⟨factors, hfactors⟩ := exists_filterM_eq_ok
        (f := fun entry : Candidate × Number => dividesAll entry.1 (distinct candidates)) fun entry hentry =>
          exists_dividesAll (distinct candidates) (hall _ (hmultiplier entry hentry).1)
      have hsub := (filterM_sublist hfactors).subset
      rw [hfactors]
      simp only
      split
      · next entry d hread =>
          refine ⟨some d, rfl, ?_⟩
          rintro _ ⟨⟩
          exact (hmultiplier _ (hsub (List.mem_of_find?_eq_some hread))).2
      · refine ⟨_, rfl, fun d hd => ?_⟩
        obtain ⟨entry, hentry, rfl⟩ := Option.map_eq_some_iff.1 hd
        exact (hmultiplier _ (hsub (List.mem_of_head? hentry))).2

/-- A field whose candidates are multipliers is given a multiplier, or given up. -/
theorem exists_choose (field : String) (h : ∀ c ∈ candidates, c.value.isMultiplier = true) :
    ∃ decoder? notices, choose field candidates = .ok (decoder?, notices) ∧
      ∀ d, decoder? = some d → d.isMultiplier = true := by
  obtain ⟨decoder?, hagreed, hmultiplier⟩ := exists_agreed h
  obtain ⟨decoders, hdecoders⟩ := exists_mapM_eq_ok (f := Candidate.decoder) fun c hc => by
    obtain ⟨d, hd, _⟩ := Candidate.exists_decoder (h c hc)
    exact ⟨d, hd⟩
  have hvoted : ∃ vote, voted candidates = .ok vote := by
    unfold voted
    rw [hdecoders]
    simp only [bind, Except.bind]
    split
    · exact ⟨_, rfl⟩
    · exact ⟨_, rfl⟩
  obtain ⟨vote, hvote⟩ := hvoted
  unfold choose
  rw [hagreed, hvote]
  cases decoder? with
  | none => exact ⟨none, _, rfl, hmultiplier⟩
  | some d =>
      cases vote with
      | none => exact ⟨some d, _, rfl, hmultiplier⟩
      | some other => exact ⟨some d, _, rfl, hmultiplier⟩

end Choice

/-- The fields that have candidates. -/
def Pending.fields (pending : Pending) : List String :=
  pending.map Prod.fst

theorem Pending.mem_fields_push {pending : Pending} {field other : String} {c : Candidate} :
    other ∈ (push field c pending).fields ↔ other = field ∨ other ∈ pending.fields := by
  induction pending with
  | nil => simp [push, fields]
  | cons entry rest ih =>
      obtain ⟨key, candidates⟩ := entry
      rw [push]
      split
      · next hkey =>
          subst hkey
          simp [fields]
      · rw [fields, List.map_cons, List.mem_cons, fields, List.map_cons, List.mem_cons]
        rw [fields, fields] at ih
        rw [ih, or_left_comm]

theorem Pending.nodup_fields_push {pending : Pending} (h : pending.fields.Nodup) (field : String)
    (c : Candidate) : (push field c pending).fields.Nodup := by
  induction pending with
  | nil => simp [push, fields]
  | cons entry rest ih =>
      obtain ⟨key, candidates⟩ := entry
      obtain ⟨hkey, hrest⟩ := List.nodup_cons.1 h
      rw [push]
      split
      · exact h
      · next hne =>
          refine List.nodup_cons.2 ⟨fun hmem => ?_, ih hrest⟩
          rcases mem_fields_push.1 hmem with heq | hmem
          · exact hne heq
          · exact hkey hmem

theorem Decoders.lookup_insert {decoders : Decoders} {field other : String} {decoder : Number} :
    (decoders.insert field decoder).lookup other =
      if other = field then some decoder else decoders.lookup other := by
  by_cases heq : other = field
  · simp [Decoders.insert, heq]
  · have hother : (other == field) = false := by simpa using heq
    rw [Decoders.insert, List.lookup_cons, hother, if_neg heq]
    exact lookup_filter_ne heq

namespace System

/-- The system is as observations make it: a field has one list of candidates, and all constants are multipliers. -/
structure Sound (s : System) : Prop where
  fields : s.pending.fields.Nodup
  candidates : ∀ field c, s.pending.Has field c → c.value.isMultiplier = true
  decoders : ∀ field decoder, (field, decoder) ∈ s.decoders → decoder.isMultiplier = true

/-- One round of the solver: the assignments are simplified, and a field is settled by its candidates or given up. -/
def Round (s : System) (field : String) (candidates : List Candidate) (decoder? : Option Number)
    (u : System) : Prop :=
  ∃ t rest notices, s.simplify = .ok t ∧ t.next? = some ((field, candidates.reverse), rest) ∧
    choose field candidates = .ok (decoder?, notices) ∧ u = t.settle field rest decoder? notices

/-- Any number of rounds. -/
abbrev Rounds : System → System → Prop :=
  Relation.ReflTransGen fun s u => ∃ field candidates decoder?, s.Round field candidates decoder? u

/-- What becomes of a system when assignments are taken back into it: those without a settled side stay, and each other
one gives at most one candidate, for the side that is not known to be settled. -/
structure Simplifies (s : System) (taken : List Assignment) (t : System) : Prop where
  decoders : t.decoders = s.decoders
  assignments : ∀ a ∈ t.assignments, a ∈ s.assignments ∨
    a ∈ taken ∧ s.decoders.lookup a.put = none ∧ s.decoders.lookup a.get = none
  fields : ∀ field ∈ t.pending.fields, field ∈ s.pending.fields ∨ ∃ a ∈ taken,
    (field = a.get ∧ s.decoders.lookup a.put ≠ none) ∨
      field = a.put ∧ s.decoders.lookup a.put = none

variable {s t u : System} {a : Assignment} {field : String} {decoder : Number}

theorem sound_observe (hs : s.Sound) (field : String) {c : Candidate} (hc : c.value.isMultiplier = true) :
    (s.observe field c).Sound := by
  refine ⟨Pending.nodup_fields_push hs.fields field c, fun other d hd => ?_, hs.decoders⟩
  rcases Pending.has_push.1 hd with hold | ⟨_, rfl⟩
  · exact hs.candidates other d hold
  · exact hc

theorem sound_observeMultiplier (hs : s.Sound) (field : String) (c : Candidate) :
    (s.observeMultiplier field c).Sound := by
  unfold observeMultiplier
  split
  · next hmultiplier => exact sound_observe hs field hmultiplier
  · exact hs

theorem sound_assign (hs : s.Sound) (a : Assignment) : (s.assign a).Sound := by
  unfold assign
  split
  · exact hs
  · exact ⟨hs.fields, hs.candidates, hs.decoders⟩

theorem fields_observeMultiplier {c : Candidate} {other : String}
    (h : other ∈ (s.observeMultiplier field c).pending.fields) : other ∈ s.pending.fields ∨ other = field := by
  unfold observeMultiplier at h
  split at h
  · exact (Pending.mem_fields_push.1 h).symm
  · exact .inl h

@[simp] theorem decoders_observeMultiplier (field : String) (c : Candidate) (s : System) :
    (s.observeMultiplier field c).decoders = s.decoders := by
  unfold observeMultiplier
  split <;> rfl

@[simp] theorem assignments_observeMultiplier (field : String) (c : Candidate) (s : System) :
    (s.observeMultiplier field c).assignments = s.assignments := by
  unfold observeMultiplier
  split <;> rfl

/-- What absorbing an assignment can do. -/
theorem absorb_cases (h : s.absorb a = .ok t) :
    (∃ c, s.decoders.lookup a.put ≠ none ∧ t = s.observeMultiplier a.get c) ∨
    (∃ c, s.decoders.lookup a.put = none ∧ t = s.observeMultiplier a.put c) ∨
    (s.decoders.lookup a.put = none ∧ s.decoders.lookup a.get = none ∧
      t = { s with assignments := s.assignments ++ [a] }) := by
  unfold absorb at h
  split at h
  · next hput => exact .inl ⟨_, by simp [hput], (Except.ok.inj h).symm⟩
  · next hput =>
      split at h
      · obtain ⟨encoder, _, h⟩ := bind_eq_ok.1 h
        exact .inr (.inl ⟨_, hput, (Except.ok.inj h).symm⟩)
      · next hget => exact .inr (.inr ⟨hput, hget, (Except.ok.inj h).symm⟩)

theorem exists_absorb (hs : s.Sound) (a : Assignment) : ∃ t, s.absorb a = .ok t := by
  unfold absorb
  split
  · exact ⟨_, rfl⟩
  · split
    · next d hd =>
        obtain ⟨encoder, hencoder, _⟩ := Number.exists_inverse (hs.decoders _ _ (mem_of_lookup hd))
        exact ⟨_, bind_eq_ok.2 ⟨encoder, hencoder, rfl⟩⟩
    · exact ⟨_, rfl⟩

theorem absorb_sound (hs : s.Sound) (h : s.absorb a = .ok t) : t.Sound := by
  rcases absorb_cases h with ⟨c, _, rfl⟩ | ⟨c, _, rfl⟩ | ⟨_, _, rfl⟩
  · exact sound_observeMultiplier hs a.get c
  · exact sound_observeMultiplier hs a.put c
  · exact ⟨hs.fields, hs.candidates, hs.decoders⟩

theorem absorb_simplifies (h : s.absorb a = .ok t) : s.Simplifies [a] t := by
  rcases absorb_cases h with ⟨c, hput, rfl⟩ | ⟨c, hput, rfl⟩ | ⟨hput, hget, rfl⟩
  · refine ⟨by simp, fun b hb => .inl (by simpa using hb), fun other hother => ?_⟩
    rcases fields_observeMultiplier hother with hold | rfl
    · exact .inl hold
    · exact .inr ⟨a, List.mem_singleton_self a, .inl ⟨rfl, hput⟩⟩
  · refine ⟨by simp, fun b hb => .inl (by simpa using hb), fun other hother => ?_⟩
    rcases fields_observeMultiplier hother with hold | rfl
    · exact .inl hold
    · exact .inr ⟨a, List.mem_singleton_self a, .inr ⟨rfl, hput⟩⟩
  · refine ⟨rfl, fun b hb => ?_, fun other hother => .inl hother⟩
    rcases List.mem_append.1 hb with hb | hb
    · exact .inl hb
    · obtain rfl := List.mem_singleton.1 hb
      exact .inr ⟨hb, hput, hget⟩

theorem Simplifies.trans {rest : List Assignment} (hst : s.Simplifies [a] t) (htu : t.Simplifies rest u) :
    s.Simplifies (a :: rest) u := by
  have hdecoders := hst.decoders
  refine ⟨htu.decoders.trans hdecoders, fun b hb => ?_, fun other hother => ?_⟩
  · rcases htu.assignments b hb with hb | ⟨hb, hput, hget⟩
    · rcases hst.assignments b hb with hb | ⟨hb, hsides⟩
      · exact .inl hb
      · exact .inr ⟨List.mem_cons.2 (.inl (List.mem_singleton.1 hb)), hsides⟩
    · exact .inr ⟨List.mem_cons_of_mem a hb, hdecoders ▸ hput, hdecoders ▸ hget⟩
  · rcases htu.fields other hother with hother | ⟨b, hb, hside⟩
    · rcases hst.fields other hother with hother | ⟨b, hb, hside⟩
      · exact .inl hother
      · exact .inr ⟨b, List.mem_cons.2 (.inl (List.mem_singleton.1 hb)), hside⟩
    · exact .inr ⟨b, List.mem_cons_of_mem a hb, hdecoders ▸ hside⟩

theorem foldlM_absorb_simplifies {rest : List Assignment} (h : rest.foldlM absorb s = .ok t) :
    s.Simplifies rest t := by
  induction rest generalizing s with
  | nil =>
      obtain rfl := Except.ok.inj h
      exact ⟨rfl, fun a ha => .inl ha, fun field hfield => .inl hfield⟩
  | cons a rest ih =>
      rw [List.foldlM_cons] at h
      obtain ⟨middle, hmiddle, h⟩ := bind_eq_ok.1 h
      exact (absorb_simplifies hmiddle).trans (ih h)

theorem exists_foldlM_absorb (hs : s.Sound) (rest : List Assignment) :
    ∃ t, rest.foldlM absorb s = .ok t ∧ t.Sound := by
  induction rest generalizing s with
  | nil => exact ⟨s, rfl, hs⟩
  | cons a rest ih =>
      obtain ⟨middle, hmiddle⟩ := exists_absorb hs a
      obtain ⟨t, ht, hsound⟩ := ih (absorb_sound hs hmiddle)
      exact ⟨t, bind_eq_ok.2 ⟨middle, hmiddle, ht⟩, hsound⟩

/-- What simplifying can do. -/
theorem simplify_simplifies (h : s.simplify = .ok t) :
    Simplifies { s with assignments := [] } s.assignments t :=
  foldlM_absorb_simplifies h

theorem exists_simplify (hs : s.Sound) : ∃ t, s.simplify = .ok t ∧ t.Sound :=
  exists_foldlM_absorb (s := { s with assignments := [] }) ⟨hs.fields, hs.candidates, hs.decoders⟩ s.assignments

/-- Simplifying keeps the decoders and leaves only assignments without a settled side. -/
theorem simplify_open (h : s.simplify = .ok t) (ha : a ∈ t.assignments) :
    a ∈ s.assignments ∧ t.decoders.lookup a.put = none ∧ t.decoders.lookup a.get = none := by
  have hsimplifies := simplify_simplifies h
  rcases hsimplifies.assignments a ha with hnone | hopen
  · cases hnone
  · rwa [hsimplifies.decoders]

section Settled

/-- A field is settled for good: it has its decoder, no candidate is left for it, and no assignment can give it one. -/
structure Settled (s : System) (field : String) (decoder : Number) : Prop where
  recorded : s.decoders.lookup field = some decoder
  idle : field ∉ s.pending.fields
  apart : ∀ a ∈ s.assignments, a.get = field → s.decoders.lookup a.put = none

theorem Settled.simplify (hs : s.Settled field decoder) (h : s.simplify = .ok t) : t.Settled field decoder := by
  have hsimplifies := simplify_simplifies h
  have hrecorded : t.decoders.lookup field = some decoder := by
    rw [hsimplifies.decoders]
    exact hs.recorded
  refine ⟨hrecorded, fun hfield => ?_, fun a ha hget => ?_⟩
  · rcases hsimplifies.fields field hfield with hold | ⟨a, ha, ⟨hget, hput⟩ | ⟨hput, hnone⟩⟩
    · exact hs.idle hold
    · exact hput (hs.apart a ha hget.symm)
    · subst hput
      exact Option.some_ne_none _ (hs.recorded.symm.trans hnone)
  · have hnone := (simplify_open h ha).2.2
    rw [hget, hrecorded] at hnone
    cases hnone

theorem fields_perm_of_next? {entry : String × List Candidate} {rest : Pending}
    (h : s.next? = some (entry, rest)) : s.pending.fields.Perm (entry.1 :: rest.fields) :=
  (perm_of_next? h).map Prod.fst

theorem lookup_settle {rest : Pending} {decoder? : Option Number} {notices : List Notice} {other : String} :
    (s.settle field rest decoder? notices).decoders.lookup other =
      if other = field then decoder?.or (s.decoders.lookup other) else s.decoders.lookup other := by
  cases decoder? with
  | none => simp [settle]
  | some d =>
      rw [settle, Decoders.lookup_insert]
      simp

/-- A round never takes up a field that is settled for good, and leaves it settled. -/
theorem Settled.round {other : String} {candidates : List Candidate} {decoder? : Option Number}
    (hs : s.Settled field decoder) (h : s.Round other candidates decoder? u) :
    other ≠ field ∧ u.Settled field decoder := by
  obtain ⟨t, rest, notices, hsimplify, hnext, -, rfl⟩ := h
  have ht := hs.simplify hsimplify
  have hperm := fields_perm_of_next? hnext
  have hne : other ≠ field := by
    rintro rfl
    exact ht.idle (hperm.mem_iff.2 List.mem_cons_self)
  refine ⟨hne, ?_, fun hrest => ht.idle (hperm.mem_iff.2 (List.mem_cons_of_mem _ hrest)), fun a ha hget => ?_⟩
  · rw [lookup_settle, if_neg hne.symm]
    exact ht.recorded
  · -- no assignment that is left mentions the field
    have hnone := (simplify_open hsimplify ha).2.2
    rw [hget, ht.recorded] at hnone
    cases hnone

theorem Settled.rounds (hs : s.Settled field decoder) (h : Rounds s u) : u.Settled field decoder := by
  induction h with
  | refl => exact hs
  | tail _ hround ih =>
      obtain ⟨_, _, _, hround⟩ := hround
      exact (ih.round hround).2

/-- A round that records a decoder for a field settles it for good, unless an assignment leads from the field to
itself. -/
theorem settled_of_round {candidates : List Candidate} (hs : s.Sound)
    (hself : ∀ a ∈ s.assignments, a.put = field → a.get ≠ field)
    (h : s.Round field candidates (some decoder) u) : u.Settled field decoder := by
  obtain ⟨t, rest, notices, hsimplify, hnext, -, rfl⟩ := h
  obtain ⟨t', ht', hsound⟩ := exists_simplify hs
  obtain rfl := Except.ok.inj (hsimplify.symm.trans ht')
  have hnodup := (fields_perm_of_next? hnext).nodup_iff.1 hsound.fields
  refine ⟨?_, (List.nodup_cons.1 hnodup).1, fun a ha hget => ?_⟩
  · rw [lookup_settle, if_pos rfl]
    rfl
  · obtain ⟨hold, hput, -⟩ := simplify_open hsimplify ha
    rw [lookup_settle, if_neg fun hput => hself a hold hput hget]
    exact hput

end Settled

section Run

variable {candidates : List Candidate} {decoder? : Option Number}

theorem Round.assignments_subset (h : s.Round field candidates decoder? u) : u.assignments ⊆ s.assignments := by
  obtain ⟨t, rest, notices, hsimplify, -, -, rfl⟩ := h
  exact fun a ha => (simplify_open hsimplify ha).1

theorem Round.sound (hs : s.Sound) (h : s.Round field candidates decoder? u) : u.Sound := by
  obtain ⟨t, rest, notices, hsimplify, hnext, hchoose, rfl⟩ := h
  obtain ⟨t', ht', hsound⟩ := exists_simplify hs
  obtain rfl := Except.ok.inj (hsimplify.symm.trans ht')
  have hperm := perm_of_next? hnext
  refine ⟨?_, fun other c hc => ?_, fun other d hd => ?_⟩
  · exact (List.nodup_cons.1 ((fields_perm_of_next? hnext).nodup_iff.1 hsound.fields)).2
  · exact hsound.candidates other c ((Pending.has_of_perm hperm).2 (.inr hc))
  · have hcandidates : ∀ c ∈ candidates, c.value.isMultiplier = true := fun c hc =>
      hsound.candidates field c ((Pending.has_of_perm hperm).2 (.inl ⟨rfl, List.mem_reverse.2 hc⟩))
    obtain ⟨_, _, hchoose', hmultiplier⟩ := exists_choose field hcandidates
    obtain ⟨rfl, -⟩ := Prod.mk.inj (Except.ok.inj (hchoose.symm.trans hchoose'))
    cases decoder? with
    | none => exact hsound.decoders other d hd
    | some decoder =>
        rcases mem_insert.1 hd with ⟨-, rfl⟩ | ⟨hold, -⟩
        · exact hmultiplier _ rfl
        · exact hsound.decoders other d hold

theorem Rounds.sound (hs : s.Sound) (h : Rounds s u) : u.Sound := by
  induction h with
  | refl => exact hs
  | tail _ hround ih =>
      obtain ⟨_, _, _, hround⟩ := hround
      exact hround.sound ih

theorem Rounds.assignments_subset (h : Rounds s u) : u.assignments ⊆ s.assignments := by
  induction h with
  | refl => exact List.Subset.refl _
  | tail _ hround ih =>
      obtain ⟨_, _, _, hround⟩ := hround
      exact List.Subset.trans hround.assignments_subset ih

/-- Solving goes on from where a round ends. -/
theorem Round.solve_eq (h : s.Round field candidates decoder? u) : s.solve = u.solve := by
  obtain ⟨t, rest, notices, hsimplify, hnext, hchoose, rfl⟩ := h
  rw [solve.eq_def]
  split
  · next e he => rw [hsimplify] at he; cases he
  · next t' ht' =>
      obtain rfl := Except.ok.inj (hsimplify.symm.trans ht')
      split
      · next hnone => rw [hnext] at hnone; cases hnone
      · next other found others hsome =>
          rw [hnext] at hsome
          obtain ⟨hentry, rfl⟩ := Prod.mk.inj (Option.some.inj hsome)
          obtain ⟨rfl, rfl⟩ := Prod.mk.inj hentry
          rw [List.reverse_reverse]
          simp only [hchoose]
          rfl

theorem Rounds.solve_eq (h : Rounds s u) : s.solve = u.solve := by
  induction h with
  | refl => rfl
  | tail _ hround ih =>
      obtain ⟨_, _, _, hround⟩ := hround
      exact ih.trans hround.solve_eq

/-- Where no field is left to settle, the answer is what was recorded. -/
theorem solve_of_idle (hsimplify : s.simplify = .ok t) (hnext : t.next? = none) :
    s.solve.2 = .ok s.decoders := by
  have hdecoders := (simplify_simplifies hsimplify).decoders
  rw [solve.eq_def]
  split
  · next e he => rw [hsimplify] at he; cases he
  · next t' ht' =>
      obtain rfl := Except.ok.inj (hsimplify.symm.trans ht')
      split
      · exact congrArg Except.ok hdecoders
      · next hsome => rw [hnext] at hsome; cases hsome

theorem Round.size_lt (h : s.Round field candidates decoder? u) : u.size < s.size := by
  obtain ⟨t, rest, notices, hsimplify, hnext, -, rfl⟩ := h
  have hsimpler := size_simplify_le hsimplify
  have hshorter := length_next? hnext
  simp only [settle, System.size] at *
  omega

theorem Sound.next_multipliers {rest : Pending} (hs : s.Sound) (hnext : s.next? = some ((field, candidates), rest)) :
    ∀ c ∈ candidates.reverse, c.value.isMultiplier = true :=
  fun c hc => hs.candidates field c
    ((Pending.has_of_perm (perm_of_next? hnext)).2 (.inl ⟨rfl, List.mem_reverse.1 hc⟩))

/-- The solver has nothing left to settle. -/
def Idle (s : System) : Prop :=
  ∃ t, s.simplify = .ok t ∧ t.next? = none

/-- A sound system is done with, or the next round succeeds. -/
theorem idle_or_exists_round (hs : s.Sound) :
    s.Idle ∨ ∃ field candidates decoder? u, s.Round field candidates decoder? u := by
  obtain ⟨t, hsimplify, hsound⟩ := exists_simplify hs
  cases hnext : t.next? with
  | none => exact .inl ⟨t, hsimplify, hnext⟩
  | some chosen =>
      obtain ⟨⟨field, latest⟩, rest⟩ := chosen
      obtain ⟨decoder?, notices, hchoose, -⟩ := exists_choose field (hsound.next_multipliers hnext)
      exact .inr ⟨field, latest.reverse, decoder?, _, t, rest, notices, hsimplify,
        by rw [List.reverse_reverse]; exact hnext, hchoose, rfl⟩

/-- A run of the solver: the systems after one round, after two rounds and so on. -/
def Run (s : System) (after : List System) : Prop :=
  (s :: after).IsChain fun s u => ∃ field candidates decoder?, s.Round field candidates decoder? u

theorem Run.rounds {after : List System} (h : s.Run after) : Rounds s (after.getLastD s) := by
  induction after generalizing s with
  | nil => exact .refl
  | cons u later ih =>
      obtain ⟨hround, hlater⟩ := List.isChain_cons_cons.1 h
      rw [List.getLastD_cons]
      exact .head hround (ih hlater)

/-- The rounds of a sound system come to an end, and what they recorded is the answer. -/
theorem exists_run (hs : s.Sound) :
    ∃ after, s.Run after ∧ (after.getLastD s).Idle ∧ s.solve.2 = .ok (after.getLastD s).decoders := by
  induction hsize : s.size using Nat.strong_induction_on generalizing s with
  | _ size ih =>
    rcases idle_or_exists_round hs with ⟨t, hsimplify, hnext⟩ | ⟨field, candidates, decoder?, u, hround⟩
    · exact ⟨[], List.isChain_singleton s, ⟨t, hsimplify, hnext⟩, solve_of_idle hsimplify hnext⟩
    · obtain ⟨after, hrun, hidle, hsolve⟩ := ih _ (hsize ▸ hround.size_lt) (hround.sound hs) rfl
      refine ⟨u :: after, List.isChain_cons_cons.2 ⟨⟨_, _, _, hround⟩, hrun⟩, ?_⟩
      rw [List.getLastD_cons, hround.solve_eq]
      exact ⟨hidle, hsolve⟩

/-- A sound system is solved by rounds, and what they recorded is the answer. -/
theorem exists_rounds (hs : s.Sound) : ∃ u, Rounds s u ∧ s.solve.2 = .ok u.decoders := by
  obtain ⟨after, hrun, -, hsolve⟩ := exists_run hs
  exact ⟨_, hrun.rounds, hsolve⟩

/-- A decoder that is recorded was there from the start, or a round chose it. -/
theorem Rounds.exists_round (h : Rounds s u) (hfield : u.decoders.lookup field = some decoder) :
    s.decoders.lookup field = some decoder ∨
      ∃ before candidates after, Rounds s before ∧ before.Round field candidates (some decoder) after := by
  induction h with
  | refl => exact .inl hfield
  | tail hrounds hround ih =>
      obtain ⟨other, candidates, decoder?, t, rest, notices, hsimplify, hnext, hchoose, rfl⟩ := hround
      have hkept := (simplify_simplifies hsimplify).decoders
      rw [lookup_settle] at hfield
      split at hfield
      · next heq =>
          subst heq
          cases decoder? with
          | none => exact ih (hkept ▸ hfield)
          | some d =>
              obtain rfl := Option.some.inj hfield
              exact .inr ⟨_, candidates, _, hrounds, t, rest, notices, hsimplify, hnext, hchoose, rfl⟩
      · exact ih (hkept ▸ hfield)

end Run

/-- A settled decoder is final, for every field that no assignment leads back to itself.  Once a round has recorded a
decoder for it, the decoder stays after every later round and simplification, no later round takes the field up again,
and solving returns this decoder; and every decoder that solving returns was there from the start or recorded in this
way. -/
theorem solve_keeps_settled (hs : s.Sound) :
    ∃ r, s.solve.2 = .ok r ∧ ∀ field, (∀ a ∈ s.assignments, a.put = field → a.get ≠ field) →
      (∀ before candidates decoder after, Rounds s before →
        before.Round field candidates (some decoder) after →
          r.lookup field = some decoder ∧ ∀ later, Rounds after later →
            later.decoders.lookup field = some decoder ∧
            (∀ t, later.simplify = .ok t → t.decoders.lookup field = some decoder) ∧
            ∀ candidates' decoder? u, ¬ later.Round field candidates' decoder? u) ∧
      ∀ decoder, r.lookup field = some decoder → s.decoders.lookup field = some decoder ∨
        ∃ before candidates after, Rounds s before ∧ before.Round field candidates (some decoder) after := by
  obtain ⟨final, hfinal, hsolve⟩ := exists_rounds hs
  refine ⟨final.decoders, hsolve, fun field hself => ⟨?_, fun decoder => hfinal.exists_round⟩⟩
  intro before candidates decoder after hbefore hround
  have hsound := hbefore.sound hs
  have hsettled := settled_of_round hsound (fun a ha => hself a (hbefore.assignments_subset ha)) hround
  refine ⟨?_, fun later hlater => ?_⟩
  · obtain ⟨u, hu, hsolve'⟩ := exists_rounds (hround.sound hsound)
    rw [hbefore.solve_eq, hround.solve_eq, hsolve'] at hsolve
    rw [← Except.ok.inj hsolve]
    exact (hsettled.rounds hu).recorded
  · have hlast := hsettled.rounds hlater
    exact ⟨hlast.recorded, fun t ht => (hlast.simplify ht).recorded,
      fun candidates' decoder? u hagain => (hlast.round hagain).1 rfl⟩

section Examples

theorem int_isMultiplier {v m : Int32} (hmul : v * m = 1) (hne : m ≠ v) : (Number.int v).isMultiplier = true :=
  Number.isMultiplier_iff.2 ⟨.int m, Number.int_inverse?_iff.2 hmul, fun heq => hne (Number.int.inj heq)⟩

/-- A multiplier of `x` was seen on a read, and there are these assignments. -/
def observed (assignments : List Assignment) : System where
  pending := [("A.x", [.decoding (.int 5)])]
  assignments := assignments

theorem observed_sound (assignments : List Assignment) : (observed assignments).Sound where
  fields := List.nodup_singleton _
  candidates field c hc := by
    obtain ⟨candidates, hfield, hc⟩ := hc
    obtain ⟨-, rfl⟩ := Prod.mk.inj (List.mem_singleton.1 hfield)
    obtain rfl := List.mem_singleton.1 hc
    exact int_isMultiplier (m := -858993459) (by decide) (by decide)
  decoders := nofun

/-- Two assignments join `x` and `y` in a circle, and one leads from `y` to itself. -/
def circular : System :=
  observed [⟨"A.x", "A.y", .int 3⟩, ⟨"A.y", "A.x", .int 7⟩, ⟨"A.y", "A.y", .int 9⟩]

theorem circular_round :
    circular.Round "A.x" [.decoding (.int 5)] (some (.int 5))
      (circular.settle "A.x" [] (some (.int 5)) []) :=
  ⟨circular, [], [], rfl, by decide, by decide, rfl⟩

theorem circular_keeps_settled :
    circular.Sound ∧ (∀ a ∈ circular.assignments, a.put = "A.x" → a.get ≠ "A.x") ∧
      Rounds circular circular ∧ (∃ after, circular.Round "A.x" [.decoding (.int 5)] (some (.int 5)) after) ∧
      ∃ r, circular.solve.2 = .ok r ∧ r.lookup "A.x" = some (.int 5) := by
  have hsound : circular.Sound := observed_sound _
  have hself : ∀ a ∈ circular.assignments, a.put = "A.x" → a.get ≠ "A.x" := by decide
  obtain ⟨r, hr, hall⟩ := solve_keeps_settled hsound
  have hkept := ((hall "A.x" hself).1 _ _ _ _ .refl circular_round).1
  exact ⟨hsound, hself, .refl, ⟨_, circular_round⟩, r, hr, hkept⟩

/-- An assignment leads from `x` to itself. -/
def reflexive : System :=
  observed [⟨"A.x", "A.x", .int 3⟩]

/-- The field is settled twice, and the second decoder is returned. -/
theorem reflexive_settled_twice :
    reflexive.Sound ∧ ∃ after later,
      reflexive.Round "A.x" [.decoding (.int 5)] (some (.int 5)) after ∧
      after.Round "A.x" [.decoding (.int 15)] (some (.int 15)) later ∧
      after.decoders.lookup "A.x" = some (.int 5) ∧ later.decoders.lookup "A.x" = some (.int 15) ∧
      ∃ r, reflexive.solve.2 = .ok r ∧ r.lookup "A.x" = some (.int 15) := by
  have hsound : reflexive.Sound := observed_sound _
  have hfirst : reflexive.Round "A.x" [.decoding (.int 5)] (some (.int 5))
      (reflexive.settle "A.x" [] (some (.int 5)) []) :=
    ⟨reflexive, [], [], rfl, by decide, by decide, rfl⟩
  have hmultiplier : (Number.int 15).isMultiplier = true :=
    int_isMultiplier (m := -286331153) (by decide) (by decide)
  have hsimplify : (reflexive.settle "A.x" [] (some (.int 5)) []).simplify =
      .ok { pending := [("A.x", [.decoding (.int 15)])], decoders := [("A.x", .int 5)] } :=
    congrArg Except.ok (observeMultiplier_eq (c := .decoding (.int 15)) hmultiplier)
  have hsecond : (reflexive.settle "A.x" [] (some (.int 5)) []).Round "A.x" [.decoding (.int 15)]
      (some (.int 15)) { decoders := [("A.x", .int 15)] } :=
    ⟨_, [], [], hsimplify, by decide, by decide, rfl⟩
  have hsolve : (solve { decoders := [("A.x", .int 15)] }).2 = .ok [("A.x", .int 15)] :=
    solve_of_idle (t := { decoders := [("A.x", .int 15)] }) rfl rfl
  rw [← hsecond.solve_eq, ← hfirst.solve_eq] at hsolve
  exact ⟨hsound, _, _, hfirst, hsecond, by decide, by decide, _, hsolve, by decide⟩

end Examples

end System

end Multiplier

end Unscramble
