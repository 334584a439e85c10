/-
Solving a consistent system.  If every observation fits one and the same choice of multipliers, every step keeps
that and keeps the fields on which the observations bear: a settled field turns its assignments into candidates
for what they join it to.  When no candidate is left, the settled fields are all of these.
-/
import Mathlib.Data.List.Nodup
import Unscramble.Multiplier.System
import Unscramble.Proofs.Inverse
import Unscramble.Proofs.Results
import Unscramble.Proofs.Tables

namespace Unscramble

namespace Multiplier

section Choice

/-- Of candidates of one kind only one stands for a decoder. -/
theorem Candidate.eq_of_decoder {a b : Candidate} {d : Number} (hkind : a.onRead = b.onRead)
    (ha : a.decoder = .ok d) (hb : b.decoder = .ok d) : a = b := by
  obtain ⟨kind, v⟩ := a
  obtain ⟨_, w⟩ := b
  obtain rfl : kind = _ := hkind
  cases kind with
  | true =>
      obtain rfl := Except.ok.inj ha
      obtain rfl := Except.ok.inj hb
      rfl
  | false =>
      have hv := Number.inverse?_symm (Number.inverse_eq_ok.1 ha)
      have hw := Number.inverse?_symm (Number.inverse_eq_ok.1 hb)
      obtain rfl := Option.some.inj (hv.symm.trans hw)
      rfl

/-- Collecting candidates one by one keeps those collected, adds all others, and never repeats one. -/
theorem foldl_distinct (candidates kept : List Candidate) (hkept : kept.Nodup) :
    let all := candidates.foldl (fun kept c => if kept.contains c then kept else kept ++ [c]) kept
    all.Nodup ∧ ∀ c, c ∈ all ↔ c ∈ kept ∨ c ∈ candidates := by
  induction candidates generalizing kept with
  | nil => exact ⟨hkept, by simp⟩
  | cons first rest ih =>
      rw [List.foldl_cons]
      split
      · next hold =>
          have hmem : first ∈ kept := by simpa using hold
          obtain ⟨hnodup, hall⟩ := ih kept hkept
          refine ⟨hnodup, fun c => (hall c).trans ?_⟩
          rw [List.mem_cons]
          constructor
          · rintro (h | h)
            · exact .inl h
            · exact .inr (.inr h)
          · rintro (h | rfl | h)
            · exact .inl h
            · exact .inl hmem
            · exact .inr h
      · next hnew =>
          have hfresh : first ∉ kept := by simpa using hnew
          obtain ⟨hnodup, hall⟩ := ih (kept ++ [first])
            (List.nodup_append.2 ⟨hkept, by simp, by
              rintro a ha b hb rfl
              exact hfresh (List.mem_singleton.1 hb ▸ ha)⟩)
          exact ⟨hnodup, fun c => (hall c).trans (by simp [or_assoc])⟩

theorem nodup_distinct (candidates : List Candidate) : (distinct candidates).Nodup :=
  (foldl_distinct candidates [] List.nodup_nil).1

theorem mem_distinct {candidates : List Candidate} {c : Candidate} :
    c ∈ distinct candidates ↔ c ∈ candidates :=
  ((foldl_distinct candidates [] List.nodup_nil).2 c).trans (by simp)

variable {candidates : List Candidate} {d : Number} {field : String}

/-- Two different candidates for one decoder are a constant of a read and one of a store. -/
theorem exists_both_kinds {a b : Candidate} (hne : a ≠ b) (ha : a ∈ candidates) (hb : b ∈ candidates)
    (h : ∀ c ∈ candidates, c.decoder = .ok d) :
    (∃ c ∈ candidates, c.onRead = true) ∧ ∃ c ∈ candidates, c.onRead = false := by
  have hkinds : a.onRead ≠ b.onRead :=
    fun hkind => hne (Candidate.eq_of_decoder hkind (h a ha) (h b hb))
  cases hkind : a.onRead with
  | true =>
      have hother : b.onRead = false := by simpa [hkind] using hkinds.symm
      exact ⟨⟨a, ha, hkind⟩, ⟨b, hb, hother⟩⟩
  | false =>
      have hother : b.onRead = true := by simpa [hkind] using hkinds.symm
      exact ⟨⟨b, hb, hother⟩, ⟨a, ha, hkind⟩⟩

/-- A read and a store that stand for one decoder are a pair. -/
theorem exists_paired {several : List Candidate} {read store : Candidate} (d : Number) (hread : read ∈ several)
    (hreads : read.onRead = true) (hstore : store ∈ several) (hstores : store.onRead = false) :
    ∃ c, ((several.map fun c => (c, d)).find? fun (c, decoder) =>
      c.onRead && (several.map fun c => (c, d)).any fun (other, otherDecoder) =>
        !other.onRead && otherDecoder == decoder) = some (c, d) := by
  have hfound : ((several.map fun c => (c, d)).find? fun (c, decoder) =>
      c.onRead && (several.map fun c => (c, d)).any fun (other, otherDecoder) =>
        !other.onRead && otherDecoder == decoder).isSome := by
    rw [List.find?_isSome]
    refine ⟨(read, d), List.mem_map_of_mem hread, ?_⟩
    simp only [hreads, Bool.true_and, List.any_eq_true]
    exact ⟨(store, d), List.mem_map_of_mem hstore, by simp [hstores]⟩
  obtain ⟨⟨c, decoder⟩, hc⟩ := Option.isSome_iff_exists.1 hfound
  obtain ⟨_, _, heq⟩ := List.mem_map.1 (List.mem_of_find?_eq_some hc)
  obtain rfl := (Prod.mk.inj heq).2
  exact ⟨c, hc⟩

/-- Without a store there is no pair. -/
theorem unpaired_of_reads {several : List Candidate} {decoderOf : Candidate → Number}
    (hreads : ∀ c ∈ several, c.onRead = true) :
    ((several.map fun c => (c, decoderOf c)).find? fun (c, decoder) =>
      c.onRead && (several.map fun c => (c, decoderOf c)).any fun (other, otherDecoder) =>
        !other.onRead && otherDecoder == decoder) = none := by
  rw [List.find?_eq_none]
  intro entry _ hentry
  rw [Bool.and_eq_true, List.any_eq_true] at hentry
  obtain ⟨-, other, hother, hstore⟩ := hentry
  obtain ⟨c, hc, rfl⟩ := List.mem_map.1 hother
  simp [hreads c hc] at hstore

/-- The candidates that divide all of them. -/
theorem factors_eq {several : List Candidate} {decoderOf : Candidate → Number} {keep : Candidate → Bool}
    (h : ∀ c ∈ several, dividesAll c several = .ok (keep c)) :
    ((several.map fun c => (c, decoderOf c)).filterM fun (c, _) => dividesAll c several) =
      .ok ((several.map fun c => (c, decoderOf c)).filter fun entry => keep entry.1) := by
  refine filterM_eq_ok_filter fun entry hentry => ?_
  obtain ⟨c, hc, rfl⟩ := List.mem_map.1 hentry
  exact h c hc

/-- Candidates that all stand for one decoder agree on it. -/
theorem agreed_of_decoders (hne : candidates ≠ []) (h : ∀ c ∈ candidates, c.decoder = .ok d) :
    agreed candidates = .ok (some d) := by
  have hall : ∀ c ∈ distinct candidates, c.decoder = .ok d :=
    fun c hc => h c (mem_distinct.1 hc)
  unfold agreed
  split
  · next single hsingle =>
      rw [hall single (by simp [hsingle])]
      rfl
  · next several hseveral =>
      have hdecoded : (distinct candidates).mapM (fun c => do pure (c, ← c.decoder)) =
          Except.ok (ε := NotInvertible) ((distinct candidates).map fun c => (c, d)) := by
        rw [mapM_eq_ok, List.forall₂_map_right_iff, List.forall₂_same]
        intro c hc
        rw [hall c hc]
        rfl
      rw [hdecoded]
      -- at least two candidates are left, and so one of each kind
      obtain ⟨⟨read, hread, hreads⟩, ⟨store, hstore, hstores⟩⟩ :
          (∃ c ∈ distinct candidates, c.onRead = true) ∧
            ∃ c ∈ distinct candidates, c.onRead = false := by
        match hlist : distinct candidates with
        | [] =>
            obtain ⟨c, hc⟩ := List.exists_mem_of_ne_nil candidates hne
            have hnone := mem_distinct.2 hc
            simp [hlist] at hnone
        | [single] => exact absurd hlist (hseveral single)
        | first :: second :: rest =>
            have hnodup := hlist ▸ nodup_distinct candidates
            have hdiffer : first ≠ second := by
              rintro rfl
              simp at hnodup
            exact exists_both_kinds hdiffer (by simp) (by simp) (hlist ▸ hall)
      obtain ⟨c, hc⟩ := exists_paired d hread hreads hstore hstores
      simp only [bind, Except.bind, hc]
      rfl

theorem dividesAll_eq_ok_true {factor : Candidate} {products : List Candidate} :
    dividesAll factor products = .ok true ↔ ∀ product ∈ products, product.isMultiple factor = .ok true := by
  induction products with
  | nil => simp [dividesAll]
  | cons product rest ih =>
      rw [dividesAll, List.forall_mem_cons, ← ih, bind_eq_ok]
      constructor
      · rintro ⟨answer, hanswer, hrest⟩
        cases answer with
        | true => exact ⟨hanswer, hrest⟩
        | false => cases hrest
      · rintro ⟨hfirst, hrest⟩
        exact ⟨true, hfirst, hrest⟩

theorem exists_dividesAll_of_isMultiple {factor : Candidate} {products : List Candidate}
    (h : ∀ product ∈ products, ∃ answer, product.isMultiple factor = .ok answer) :
    ∃ answer, dividesAll factor products = .ok answer := by
  induction products with
  | nil => exact ⟨true, rfl⟩
  | cons product rest ih =>
      obtain ⟨answer, hanswer⟩ := h product List.mem_cons_self
      rw [dividesAll, hanswer]
      cases answer with
      | true => exact ih fun other hother => h other (List.mem_cons_of_mem product hother)
      | false => exact ⟨false, rfl⟩

theorem voted_ok (h : ∀ c ∈ candidates, c.decoder = .ok d) : ∃ vote, voted candidates = .ok vote := by
  have hdecoders : candidates.mapM Candidate.decoder =
      Except.ok (candidates.map fun _ => d) := by
    rw [mapM_eq_ok, List.forall₂_map_right_iff, List.forall₂_same]
    exact h
  unfold voted
  rw [hdecoders]
  simp only [bind, Except.bind]
  split
  · exact ⟨_, rfl⟩
  · exact ⟨_, rfl⟩

/-- A field whose candidates all stand for one decoder is given it. -/
theorem choose_of_decoders (hne : candidates ≠ []) (h : ∀ c ∈ candidates, c.decoder = .ok d) :
    ∃ notices, choose field candidates = .ok (some d, notices) := by
  obtain ⟨vote, hvote⟩ := voted_ok h
  unfold choose
  rw [agreed_of_decoders hne h, hvote]
  cases vote with
  | none => exact ⟨_, rfl⟩
  | some other => exact ⟨_, rfl⟩

end Choice

namespace Pending

/-- A field has a candidate. -/
def Has (pending : Pending) (field : String) (c : Candidate) : Prop :=
  ∃ candidates, (field, candidates) ∈ pending ∧ c ∈ candidates

theorem has_push {pending : Pending} {field other : String} {c d : Candidate} :
    (push field c pending).Has other d ↔ pending.Has other d ∨ other = field ∧ d = c := by
  induction pending with
  | nil =>
      simp only [push, Has, List.mem_singleton, Prod.mk.injEq, List.not_mem_nil, false_and,
        exists_false, false_or]
      constructor
      · rintro ⟨_, ⟨rfl, rfl⟩, hd⟩
        exact ⟨rfl, List.mem_singleton.1 hd⟩
      · rintro ⟨rfl, rfl⟩
        exact ⟨_, ⟨rfl, rfl⟩, List.mem_singleton_self d⟩
  | cons entry rest ih =>
      obtain ⟨key, candidates⟩ := entry
      have hcons : ∀ (candidates : List Candidate) (rest : Pending),
          Has ((key, candidates) :: rest) other d ↔
            (other = key ∧ d ∈ candidates) ∨ rest.Has other d := by
        intro candidates rest
        constructor
        · rintro ⟨found, hfound, hd⟩
          rcases List.mem_cons.1 hfound with heq | hrest
          · obtain ⟨rfl, rfl⟩ := Prod.mk.inj heq
            exact .inl ⟨rfl, hd⟩
          · exact .inr ⟨found, hrest, hd⟩
        · rintro (⟨rfl, hd⟩ | ⟨found, hfound, hd⟩)
          · exact ⟨candidates, List.mem_cons_self, hd⟩
          · exact ⟨found, List.mem_cons_of_mem _ hfound, hd⟩
      rw [push]
      split
      · next hkey =>
          subst hkey
          rw [hcons, hcons, List.mem_cons]
          constructor
          · rintro (⟨rfl, rfl | hd⟩ | hrest)
            · exact .inr ⟨rfl, rfl⟩
            · exact .inl (.inl ⟨rfl, hd⟩)
            · exact .inl (.inr hrest)
          · rintro ((⟨rfl, hd⟩ | hrest) | ⟨rfl, rfl⟩)
            · exact .inl ⟨rfl, .inr hd⟩
            · exact .inr hrest
            · exact .inl ⟨rfl, .inl rfl⟩
      · rw [hcons, hcons, ih, or_assoc]

theorem has_of_perm {pending : Pending} {field other : String} {candidates : List Candidate}
    {rest : Pending} {c : Candidate} (h : pending.Perm ((field, candidates) :: rest)) :
    pending.Has other c ↔ other = field ∧ c ∈ candidates ∨ rest.Has other c := by
  constructor
  · rintro ⟨found, hfound, hc⟩
    rcases List.mem_cons.1 (h.mem_iff.1 hfound) with heq | hrest
    · obtain ⟨rfl, rfl⟩ := Prod.mk.inj heq
      exact .inl ⟨rfl, hc⟩
    · exact .inr ⟨found, hrest, hc⟩
  · rintro (⟨rfl, hc⟩ | ⟨found, hfound, hc⟩)
    · exact ⟨candidates, h.mem_iff.2 List.mem_cons_self, hc⟩
    · exact ⟨found, h.mem_iff.2 (List.mem_cons_of_mem _ hfound), hc⟩

end Pending

namespace System

/-- Every observation fits the multipliers that `D` gives to the fields. -/
structure Consistent (D : String → Number) (s : System) : Prop where
  multiplier : ∀ field, (D field).isMultiplier = true
  candidates : ∀ field c, s.pending.Has field c → c.decoder = .ok (D field)
  assignments : ∀ a ∈ s.assignments, (D a.put).mul a.factor = D a.get
  decoders : ∀ field decoder, (field, decoder) ∈ s.decoders → decoder = D field

/-- The observations bear on a field: it is settled or has a candidate, or an assignment joins it, from either
side, to a field on which they bear. -/
inductive Determined (s : System) : String → Prop where
  | settled {field : String} {decoder : Number} : (field, decoder) ∈ s.decoders → Determined s field
  | candidate {field : String} {c : Candidate} : s.pending.Has field c → Determined s field
  | get {a : Assignment} : a ∈ s.assignments → Determined s a.put → Determined s a.get
  | put {a : Assignment} : a ∈ s.assignments → Determined s a.get → Determined s a.put

/-- What a step of the solver keeps. -/
structure Keeps (D : String → Number) (s t : System) : Prop where
  consistent : t.Consistent D
  determined : ∀ field, t.Determined field ↔ s.Determined field

/-- No assignment that is left has a settled side. -/
def Unsettled (s : System) : Prop :=
  ∀ a ∈ s.assignments, ∀ decoder, (a.put, decoder) ∉ s.decoders ∧ (a.get, decoder) ∉ s.decoders

variable {D : String → Number} {s t u : System}

theorem Keeps.trans (hst : Keeps D s t) (htu : Keeps D t u) : Keeps D s u :=
  ⟨htu.consistent, fun field => (htu.determined field).trans (hst.determined field)⟩

/-- Determination carries over where each of its rules does. -/
theorem Determined.mono {field : String} (h : s.Determined field)
    (hsettled : ∀ field decoder, (field, decoder) ∈ s.decoders → t.Determined field)
    (hcandidate : ∀ field c, s.pending.Has field c → t.Determined field)
    (hjoined : ∀ a ∈ s.assignments, t.Determined a.put ↔ t.Determined a.get) :
    t.Determined field := by
  induction h with
  | settled h => exact hsettled _ _ h
  | candidate h => exact hcandidate _ _ h
  | get ha _ ih => exact (hjoined _ ha).1 ih
  | put ha _ ih => exact (hjoined _ ha).2 ih

theorem Determined.joined {a : Assignment} (ha : a ∈ s.assignments) :
    s.Determined a.put ↔ s.Determined a.get :=
  ⟨.get ha, .put ha⟩

section Simplify

variable {a : Assignment} {rest : List Assignment}

/-- The system with assignments that are still to be absorbed. -/
def awaiting (s : System) (rest : List Assignment) : System :=
  { s with assignments := s.assignments ++ rest }

theorem mem_awaiting {b : Assignment} :
    b ∈ (s.awaiting rest).assignments ↔ b ∈ s.assignments ∨ b ∈ rest :=
  List.mem_append

/-- An assignment with a settled side may be replaced by a candidate for the other side. -/
theorem keeps_observe {field : String} {c : Candidate} (hs : (s.awaiting (a :: rest)).Consistent D)
    (hc : c.decoder = .ok (D field))
    (hside : (field = a.get ∧ ∃ decoder, (a.put, decoder) ∈ s.decoders) ∨
      field = a.put ∧ ∃ decoder, (a.get, decoder) ∈ s.decoders) :
    Keeps D (s.awaiting (a :: rest)) ((s.observe field c).awaiting rest) := by
  have hmem : a ∈ (s.awaiting (a :: rest)).assignments := mem_awaiting.2 (.inr List.mem_cons_self)
  refine ⟨⟨hs.multiplier, ?_, ?_, hs.decoders⟩, fun other => ⟨?_, ?_⟩⟩
  · intro other d hd
    rcases Pending.has_push.1 hd with hold | ⟨rfl, rfl⟩
    · exact hs.candidates other d hold
    · exact hc
  · intro b hb
    rcases mem_awaiting.1 hb with hb | hb
    · exact hs.assignments b (mem_awaiting.2 (.inl hb))
    · exact hs.assignments b (mem_awaiting.2 (.inr (List.mem_cons_of_mem a hb)))
  · -- the new candidate is for a field that `a` joins to a settled one
    intro h
    refine h.mono (fun _ _ h => .settled h) ?_ ?_
    · intro other d hd
      rcases Pending.has_push.1 hd with hold | ⟨rfl, -⟩
      · exact .candidate hold
      · rcases hside with ⟨rfl, _, hput⟩ | ⟨rfl, _, hget⟩
        · exact .get hmem (.settled hput)
        · exact .put hmem (.settled hget)
    · intro b hb
      apply Determined.joined
      rcases mem_awaiting.1 hb with hb | hb
      · exact mem_awaiting.2 (.inl hb)
      · exact mem_awaiting.2 (.inr (List.mem_cons_of_mem a hb))
  · intro h
    refine h.mono (fun _ _ h => .settled h)
      (fun _ _ h => .candidate (Pending.has_push.2 (.inl h))) ?_
    intro b hb
    rcases mem_awaiting.1 hb with hb | hb
    · exact Determined.joined (mem_awaiting.2 (.inl hb))
    · rcases List.mem_cons.1 hb with rfl | hb
      · have hfield : ((s.observe field c).awaiting rest).Determined field :=
          .candidate (Pending.has_push.2 (.inr ⟨rfl, rfl⟩))
        rcases hside with ⟨rfl, _, hput⟩ | ⟨rfl, _, hget⟩
        · exact ⟨fun _ => hfield, fun _ => .settled hput⟩
        · exact ⟨fun _ => .settled hget, fun _ => hfield⟩
      · exact Determined.joined (mem_awaiting.2 (.inr hb))

theorem observeMultiplier_eq {field : String} {c : Candidate} (h : c.value.isMultiplier = true) :
    s.observeMultiplier field c = s.observe field c :=
  if_pos h

/-- Absorbing an assignment never fails on a consistent system, and keeps it so. -/
theorem absorb_keeps (hs : (s.awaiting (a :: rest)).Consistent D) (hopen : s.Unsettled) :
    ∃ t, s.absorb a = .ok t ∧ Keeps D (s.awaiting (a :: rest)) (t.awaiting rest) ∧ t.Unsettled ∧
      t.decoders = s.decoders := by
  have ha := hs.assignments a (mem_awaiting.2 (.inr List.mem_cons_self))
  cases hput : s.decoders.lookup a.put with
  | some decoder =>
      have hmem := mem_of_lookup hput
      obtain rfl := hs.decoders _ _ hmem
      have hmultiplier : (Candidate.decoding ((D a.put).mul a.factor)).value.isMultiplier = true :=
        ha ▸ hs.multiplier a.get
      have hdecoder : (Candidate.decoding ((D a.put).mul a.factor)).decoder = .ok (D a.get) :=
        congrArg Except.ok ha
      refine ⟨s.observe a.get (.decoding ((D a.put).mul a.factor)), ?_,
        keeps_observe hs hdecoder (.inl ⟨rfl, _, hmem⟩), hopen, rfl⟩
      simp only [absorb, hput, observeMultiplier_eq hmultiplier]
  | none =>
      cases hget : s.decoders.lookup a.get with
      | some decoder =>
          have hmem := mem_of_lookup hget
          obtain rfl := hs.decoders _ _ hmem
          obtain ⟨encoder, hencoder, _⟩ := Number.isMultiplier_iff.1 (hs.multiplier a.get)
          have hundo : (encoder.mul a.factor).inverse? = some (D a.put) := by
            rw [← ha] at hencoder
            exact Number.inverse?_mul_cancel hencoder
          have hdecoder : (Candidate.encoding (encoder.mul a.factor)).decoder = .ok (D a.put) :=
            Number.inverse_eq_ok.2 hundo
          have hmultiplier : (Candidate.encoding (encoder.mul a.factor)).value.isMultiplier = true := by
            -- a number that is its own inverse would make the multiplier of `put` its own inverse
            refine Number.isMultiplier_iff.2 ⟨D a.put, hundo, fun hself => ?_⟩
            obtain ⟨m, hm, hne⟩ := Number.isMultiplier_iff.1 (hs.multiplier a.put)
            have hself' : D a.put = encoder.mul a.factor := hself
            rw [← hself'] at hundo
            exact hne (Option.some.inj (hm.symm.trans hundo))
          refine ⟨s.observe a.put (.encoding (encoder.mul a.factor)), ?_,
            keeps_observe hs hdecoder (.inr ⟨rfl, _, hmem⟩), hopen, rfl⟩
          simp only [absorb, hput, hget, Number.inverse_eq_ok.2 hencoder, bind, Except.bind, pure,
            Except.pure, observeMultiplier_eq hmultiplier]
      | none =>
          have hsame : System.awaiting { s with assignments := s.assignments ++ [a] } rest =
              s.awaiting (a :: rest) := by
            simp [awaiting]
          refine ⟨{ s with assignments := s.assignments ++ [a] }, ?_, ?_, ?_, rfl⟩
          · simp only [absorb, hput, hget]
          · rw [hsame]
            exact ⟨hs, fun _ => Iff.rfl⟩
          · intro b hb decoder
            rcases List.mem_append.1 hb with hb | hb
            · exact hopen b hb decoder
            · obtain rfl := List.mem_singleton.1 hb
              exact ⟨not_mem_of_lookup hput decoder, not_mem_of_lookup hget decoder⟩

theorem foldlM_absorb_keeps (hs : (s.awaiting rest).Consistent D) (hopen : s.Unsettled) :
    ∃ t, rest.foldlM absorb s = .ok t ∧ Keeps D (s.awaiting rest) t ∧ t.Unsettled ∧
      t.decoders = s.decoders := by
  induction rest generalizing s with
  | nil =>
      have hsame : s.awaiting [] = s := by simp [awaiting]
      rw [hsame] at hs ⊢
      exact ⟨s, rfl, ⟨hs, fun _ => Iff.rfl⟩, hopen, rfl⟩
  | cons a rest ih =>
      obtain ⟨middle, habsorb, hkeeps, hopen', hdecoders⟩ := absorb_keeps hs hopen
      obtain ⟨t, hfold, hkeeps', hopen'', hdecoders'⟩ := ih hkeeps.consistent hopen'
      refine ⟨t, ?_, hkeeps.trans hkeeps', hopen'', hdecoders'.trans hdecoders⟩
      rw [List.foldlM_cons, habsorb]
      exact hfold

/-- Simplifying a consistent system succeeds and leaves only assignments without a settled side. -/
theorem simplify_keeps (hs : s.Consistent D) :
    ∃ t, s.simplify = .ok t ∧ Keeps D s t ∧ t.Unsettled ∧ t.decoders = s.decoders := by
  have hsame : System.awaiting { s with assignments := [] } s.assignments = s := by simp [awaiting]
  have hopen : Unsettled { s with assignments := [] } := nofun
  obtain ⟨t, hfold, hkeeps, hopen', hdecoders⟩ :=
    foldlM_absorb_keeps (s := { s with assignments := [] }) (hsame.symm ▸ hs) hopen
  rw [hsame] at hkeeps
  exact ⟨t, hfold, hkeeps, hopen', hdecoders⟩

end Simplify

section Settle

theorem next?_eq_none (h : s.next? = none) : s.pending = [] := by
  simp only [next?] at h
  split at h
  · next hpending => exact hpending
  · split at h <;> cases h

theorem perm_of_find? {α : Type} {p : α → Bool} {l : List α} {a : α} (h : l.find? p = some a) :
    l.Perm (a :: l.eraseP p) := by
  obtain ⟨ha, before, after, rfl, hbefore⟩ := List.find?_eq_some_iff_append.1 h
  rw [List.eraseP_append_right _ (by simpa using hbefore), List.eraseP_cons_of_pos ha]
  exact List.perm_middle

/-- The field that comes next is one of those that wait, and the others are the rest. -/
theorem perm_of_next? {entry : String × List Candidate} {rest : Pending}
    (h : s.next? = some (entry, rest)) : s.pending.Perm (entry :: rest) := by
  simp only [next?] at h
  split at h
  · cases h
  · next first others hpending =>
      split at h
      · next found hfound =>
          obtain ⟨rfl, rfl⟩ := Prod.mk.inj (Option.some.inj h)
          exact perm_of_find? hfound
      · obtain ⟨rfl, rfl⟩ := Prod.mk.inj (Option.some.inj h)
        rw [hpending]

/-- The system after a field was settled, or given up for want of candidates. -/
def settle (t : System) (field : String) (rest : Pending) (decoder? : Option Number)
    (notices : List Notice) : System :=
  { t with
    pending := rest
    decoders := match decoder? with
      | some decoder => Decoders.insert field decoder t.decoders
      | none => t.decoders
    notices := t.notices ++ notices }

theorem mem_insert {decoders : Decoders} {field other : String} {decoder d : Number} :
    (other, d) ∈ decoders.insert field decoder ↔
      other = field ∧ d = decoder ∨ (other, d) ∈ decoders ∧ other ≠ field := by
  simp [Decoders.insert]

theorem nodup_insert {decoders : Decoders} (h : (decoders.map Prod.fst).Nodup) (field : String)
    (decoder : Number) : ((decoders.insert field decoder).map Prod.fst).Nodup := by
  rw [Decoders.insert, List.map_cons, List.nodup_cons]
  refine ⟨?_, h.sublist (List.filter_sublist.map _)⟩
  simp

/-- A field without candidates is given up. -/
theorem keeps_give_up {field : String} {rest : Pending} {notices : List Notice} (hs : s.Consistent D)
    (hperm : s.pending.Perm ((field, []) :: rest)) : Keeps D s (s.settle field rest none notices) := by
  have hhas : ∀ other c, s.pending.Has other c ↔ rest.Has other c := by
    intro other c
    rw [Pending.has_of_perm hperm]
    simp
  refine ⟨⟨hs.multiplier, fun other c hc => hs.candidates other c ((hhas other c).2 hc), hs.assignments,
    hs.decoders⟩, fun other => ⟨?_, ?_⟩⟩
  · intro h
    exact h.mono (fun _ _ h => .settled h) (fun _ _ h => .candidate ((hhas _ _).2 h))
      fun _ hb => Determined.joined hb
  · intro h
    exact h.mono (fun _ _ h => .settled h) (fun _ _ h => .candidate ((hhas _ _).1 h))
      fun _ hb => Determined.joined hb

/-- A field with a candidate is settled. -/
theorem keeps_settle {field : String} {candidates : List Candidate} {rest : Pending}
    {notices : List Notice} (hs : s.Consistent D) (hne : candidates ≠ [])
    (hperm : s.pending.Perm ((field, candidates) :: rest)) :
    Keeps D s (s.settle field rest (some (D field)) notices) := by
  have hrest : ∀ other c, rest.Has other c → s.pending.Has other c :=
    fun other c hc => (Pending.has_of_perm hperm).2 (.inr hc)
  have hfield : (s.settle field rest (some (D field)) notices).Determined field :=
    .settled (mem_insert.2 (.inl ⟨rfl, rfl⟩))
  refine ⟨⟨hs.multiplier, fun other c hc => hs.candidates other c (hrest other c hc), hs.assignments, ?_⟩,
    fun other => ⟨?_, ?_⟩⟩
  · intro other d hd
    rcases mem_insert.1 hd with ⟨rfl, rfl⟩ | ⟨hold, _⟩
    · rfl
    · exact hs.decoders other d hold
  · intro h
    refine h.mono ?_ (fun _ _ h => .candidate (hrest _ _ h)) fun _ hb => Determined.joined hb
    intro other d hd
    rcases mem_insert.1 hd with ⟨rfl, rfl⟩ | ⟨hold, _⟩
    · obtain ⟨c, hc⟩ := List.exists_mem_of_ne_nil candidates hne
      exact .candidate ((Pending.has_of_perm hperm).2 (.inl ⟨rfl, hc⟩))
    · exact .settled hold
  · intro h
    refine h.mono ?_ ?_ fun _ hb => Determined.joined hb
    · intro other d hd
      by_cases hother : other = field
      · exact hother ▸ hfield
      · exact .settled (mem_insert.2 (.inr ⟨hd, hother⟩))
    · intro other c hc
      rcases (Pending.has_of_perm hperm).1 hc with ⟨rfl, _⟩ | hc
      · exact hfield
      · exact .candidate hc

/-- The next field is settled with its multiplier, or given up if it has no candidates. -/
theorem choose_keeps {field : String} {candidates : List Candidate} {rest : Pending}
    (hs : s.Consistent D) (hnext : s.next? = some ((field, candidates), rest)) :
    ∃ decoder? notices, choose field candidates.reverse = .ok (decoder?, notices) ∧
      Keeps D s (s.settle field rest decoder? notices) := by
  have hperm := perm_of_next? hnext
  cases candidates with
  | nil => exact ⟨none, _, rfl, keeps_give_up hs hperm⟩
  | cons c others =>
      have hall : ∀ d ∈ (c :: others).reverse, d.decoder = .ok (D field) := by
        intro d hd
        exact hs.candidates field d ((Pending.has_of_perm hperm).2 (.inl ⟨rfl, List.mem_reverse.1 hd⟩))
      obtain ⟨notices, hchoose⟩ := choose_of_decoders (by simp) hall
      exact ⟨some (D field), notices, hchoose, keeps_settle hs (by simp) hperm⟩

end Settle

/-- When nothing waits, the settled fields are those on which the observations bear. -/
theorem Unsettled.determined_iff (hopen : s.Unsettled) (hpending : s.pending = []) {field : String} :
    s.Determined field ↔ ∃ decoder, (field, decoder) ∈ s.decoders := by
  constructor
  · intro h
    induction h with
    | settled h => exact ⟨_, h⟩
    | candidate h =>
        obtain ⟨_, hmem, _⟩ := h
        simp [hpending] at hmem
    | get ha _ ih =>
        obtain ⟨decoder, hdecoder⟩ := ih
        exact absurd hdecoder (hopen _ ha decoder).1
    | put ha _ ih =>
        obtain ⟨decoder, hdecoder⟩ := ih
        exact absurd hdecoder (hopen _ ha decoder).2
  · rintro ⟨decoder, h⟩
    exact .settled h

/-- A consistent system is solved, with the multipliers of exactly the fields on which it bears. -/
theorem solve_of_consistent (hs : s.Consistent D) (hkeys : (s.decoders.map Prod.fst).Nodup) :
    ∃ r, s.solve.2 = .ok r ∧ (r.map Prod.fst).Nodup ∧
      ∀ field decoder, (field, decoder) ∈ r ↔ s.Determined field ∧ decoder = D field := by
  induction hsize : s.size using Nat.strong_induction_on generalizing s with
  | _ size ih =>
    obtain ⟨t, hsimplify, hkeeps, hopen, hdecoders⟩ := simplify_keeps hs
    rw [← hdecoders] at hkeys
    rw [solve.eq_def]
    split
    · next e he => rw [hsimplify] at he; cases he
    · next t' ht' =>
        obtain rfl := Except.ok.inj (hsimplify.symm.trans ht')
        split
        · next hnext =>
            refine ⟨t.decoders, rfl, hkeys, fun field decoder => ?_⟩
            rw [← hkeeps.determined, hopen.determined_iff (next?_eq_none hnext)]
            constructor
            · intro h
              exact ⟨⟨decoder, h⟩, hkeeps.consistent.decoders _ _ h⟩
            · rintro ⟨⟨found, h⟩, rfl⟩
              obtain rfl := hkeeps.consistent.decoders _ _ h
              exact h
        · next field candidates rest hnext =>
            obtain ⟨decoder?, notices, hchoose, hkeeps'⟩ := choose_keeps hkeeps.consistent hnext
            have hless : (t.settle field rest decoder? notices).size < size := by
              have hsimpler := size_simplify_le hsimplify
              have hshorter := length_next? hnext
              simp only [settle, System.size] at *
              omega
            have hkeys' : ((t.settle field rest decoder? notices).decoders.map Prod.fst).Nodup := by
              cases decoder? with
              | none => exact hkeys
              | some decoder => exact nodup_insert hkeys field decoder
            obtain ⟨r, hr, hnodup, hall⟩ := ih _ hless hkeeps'.consistent hkeys' rfl
            refine ⟨r, ?_, hnodup, fun other decoder => ?_⟩
            · simp only [hchoose]
              exact hr
            · rw [hall, hkeeps'.determined, hkeeps.determined]

/-- The two systems hold the same observations, in whatever order and however often. -/
structure SameObservations (s t : System) : Prop where
  candidates : ∀ field c, t.pending.Has field c ↔ s.pending.Has field c
  assignments : ∀ a, a ∈ t.assignments ↔ a ∈ s.assignments

theorem SameObservations.consistent (h : s.SameObservations t) (hs : s.Consistent D)
    (ht : t.decoders = []) : t.Consistent D where
  multiplier := hs.multiplier
  candidates field c hc := hs.candidates field c ((h.candidates field c).1 hc)
  assignments a ha := hs.assignments a ((h.assignments a).1 ha)
  decoders := by simp [ht]

theorem SameObservations.determined (h : s.SameObservations t) (hs : s.decoders = [])
    (ht : t.decoders = []) {field : String} : t.Determined field ↔ s.Determined field := by
  constructor
  · intro hfield
    refine hfield.mono (by simp [ht]) (fun _ _ hc => .candidate ((h.candidates _ _).1 hc)) ?_
    exact fun a ha => Determined.joined ((h.assignments a).1 ha)
  · intro hfield
    refine hfield.mono (by simp [hs]) (fun _ _ hc => .candidate ((h.candidates _ _).2 hc)) ?_
    exact fun a ha => Determined.joined ((h.assignments a).2 ha)

/-- If all observations fit multipliers of the fields, solving succeeds and gives those of exactly the fields that
assignments connect to a field with a candidate.  The order of the observations plays no part. -/
theorem solve_exact (hs : s.Consistent D) (hempty : s.decoders = []) :
    ∃ r, s.solve.2 = .ok r ∧ (∀ field, s.Determined field → r.lookup field = some (D field)) ∧
      (∀ field, ¬ s.Determined field → r.lookup field = none) ∧
      ∀ t : System, t.decoders = [] → s.SameObservations t →
        ∃ r', t.solve.2 = .ok r' ∧ r'.Perm r := by
  obtain ⟨r, hr, hkeys, hall⟩ := solve_of_consistent hs (by simp [hempty])
  refine ⟨r, hr, fun field hfield => ?_, fun field hfield => ?_, fun t ht hsame => ?_⟩
  · exact (lookup_eq_some_iff_mem hkeys).2 ((hall field (D field)).2 ⟨hfield, rfl⟩)
  · rw [List.lookup_eq_none_iff]
    rintro ⟨other, decoder⟩ hmem
    have hother := ((hall other decoder).1 hmem).1
    simpa using fun heq : field = other => hfield (heq ▸ hother)
  · obtain ⟨r', hr', hkeys', hall'⟩ := solve_of_consistent (hsame.consistent hs ht) (by simp [ht])
    refine ⟨r', hr', (List.perm_ext_iff_of_nodup (List.Nodup.of_map _ hkeys') (List.Nodup.of_map _ hkeys)).2 ?_⟩
    rintro ⟨field, decoder⟩
    rw [hall', hall, hsame.determined hempty ht]


/-- Four fields.  The multiplier of `x` was seen on a read and on a store, and two assignments lead from `x` to
`y` and from `y` back to `w`; nothing bears on `z`. -/
def chained : System where
  pending := [("A.x", [.encoding (.int (-858993459)), .decoding (.int 5)])]
  assignments := [⟨"A.w", "A.y", .int 5⟩, ⟨"A.x", "A.y", .int 3⟩]

/-- Multipliers that fit the observations. -/
def chainedMultipliers (field : String) : Number :=
  if field = "A.x" then .int 5 else if field = "A.y" then .int 15 else .int 3

theorem chained_consistent : chained.Consistent chainedMultipliers where
  multiplier field := by
    have hmultiplier : ∀ v m : Int32, v * m = 1 → m ≠ v → (Number.int v).isMultiplier = true :=
      fun v m hmul hne => Number.isMultiplier_iff.2
        ⟨.int m, Number.int_inverse?_iff.2 hmul, fun heq => hne (Number.int.inj heq)⟩
    unfold chainedMultipliers
    split
    · exact hmultiplier 5 (-858993459) (by decide) (by decide)
    · split
      · exact hmultiplier 15 (-286331153) (by decide) (by decide)
      · exact hmultiplier 3 (-1431655765) (by decide) (by decide)
  candidates field c hc := by
    obtain ⟨candidates, hfield, hc⟩ := hc
    obtain ⟨rfl, rfl⟩ := Prod.mk.inj (List.mem_singleton.1 hfield)
    have hinverse : (Number.int (-858993459)).inverse? = some (.int 5) :=
      Number.int_inverse?_iff.2 (by decide)
    rcases List.mem_cons.1 hc with rfl | hc
    · exact Number.inverse_eq_ok.2 hinverse
    · obtain rfl := List.mem_singleton.1 hc
      rfl
  assignments := by decide
  decoders := nofun

theorem chained_solved :
    chained.Consistent chainedMultipliers ∧ chained.decoders = [] ∧
      ∃ r, chained.solve.2 = .ok r ∧ r.lookup "A.w" = some (.int 3) ∧ r.lookup "A.z" = none := by
  obtain ⟨r, hr, hfound, hmissing, _⟩ := solve_exact chained_consistent rfl
  have hx : chained.Determined "A.x" := .candidate ⟨_, List.mem_cons_self, List.mem_cons_self⟩
  have hy : chained.Determined "A.y" :=
    .get (a := ⟨"A.x", "A.y", .int 3⟩) (by decide) hx
  have hw : chained.Determined "A.w" :=
    .put (a := ⟨"A.w", "A.y", .int 5⟩) (by decide) hy
  have hz : ¬ chained.Determined "A.z" := by
    have hnamed : ∀ a ∈ chained.assignments, a.put ≠ "A.z" ∧ a.get ≠ "A.z" := by decide
    have hother : ∀ field, chained.Determined field → field ≠ "A.z" := by
      intro field h
      induction h with
      | settled h => cases h
      | candidate h =>
          obtain ⟨_, hmem, _⟩ := h
          rw [(Prod.mk.inj (List.mem_singleton.1 hmem)).1]
          decide
      | get ha _ _ => exact (hnamed _ ha).2
      | put ha _ _ => exact (hnamed _ ha).1
    exact fun h => hother _ h rfl
  exact ⟨chained_consistent, rfl, r, hr, hfound _ hw, hmissing _ hz⟩

end System

end Multiplier

end Unscramble
