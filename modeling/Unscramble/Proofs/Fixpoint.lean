/-
The result of an analysis is a fixpoint.  Frames only ever grow, and an instruction whose frame has grown
waits to be followed again; so when none waits any more, every frame has arrived, with nothing left to
change, at everything that follows its instruction.  The frames that exist are then those of the
instructions that can be reached, and the edges that were followed are those that start there.
-/
import Unscramble.Proofs.AnalysisSteps
import Unscramble.Proofs.DomainLaws
import Unscramble.Proofs.Flow

namespace Unscramble

variable {V : Type}

theorem Frame.atHandler_good {d : Domain V} {P : V → Prop} (hd : d.Lawful P) {f : Frame V}
    (hf : f.Good P) : (f.atHandler d).Good P :=
  ⟨hf.1, by simpa [Frame.atHandler] using hd.good_fresh .reference⟩

/-- Frames can be followed along a flow.  `Good` says what a frame at an instruction must be like; the frames that
follow are then good at their places.  `Above` says when one frame stands for another one; joining two frames gives one
that stands for both. -/
structure Flow.Follows (flow : Flow) (d : Domain V) (Good : Nat → Frame V → Prop)
    (Above : Frame V → Frame V → Prop) : Prop where
  refl : ∀ {index f}, Good index f → Above f f
  trans : ∀ {index f g h}, Good index f → Good index g → Good index h → Above f g → Above g h → Above f h
  next : ∀ {index instr effect f g next target}, Good index f → flow.code[index]? = some (instr, effect) →
    f.execute d index instr effect = .ok g → flow.successors index instr effect = .ok next → target ∈ next →
      Good target g
  handler : ∀ {index f range}, Good index f → range ∈ flow.handlers → range.covers index = true →
    Good range.handler (f.atHandler d)
  merge : ∀ {index f g merged changed}, Good index f → Good index g → f.merge d g = .ok (merged, changed) →
    Good index merged ∧ Above merged f ∧ Above merged g ∧ (changed = false → merged = f)

/-- A frame of lawful values with the given number of local slots. -/
def Frame.Fits (P : V → Prop) (slots : Nat) (f : Frame V) : Prop :=
  f.Good P ∧ f.locals.length = slots

/-- In a lawful domain frames can be followed along every flow. -/
theorem Flow.follows_of_lawful {d : Domain V} {P : V → Prop} (hd : d.Lawful P) (flow : Flow) (slots : Nat) :
    flow.Follows d (fun _ => Frame.Fits P slots) (Frame.Above d) where
  refl hf := Frame.Above.refl hd hf.1
  trans hf hg hh := Frame.Above.trans hd hf.1 hg.1 hh.1
  next := by
    intro index instr effect f g next target hf _ hexecute _ _
    obtain ⟨hgood, hslots⟩ := Frame.execute_ok (hd.makes index instr) hf.1 hexecute
    exact ⟨hgood, hslots.trans hf.2⟩
  handler hf _ _ := ⟨Frame.atHandler_good hd hf.1, hf.2⟩
  merge hf hg hmerge := by
    obtain ⟨hgood, hslots, hboth⟩ := Frame.merge_ok hd hf.1 hg.1 (hf.2.trans hg.2.symm) hmerge
    exact ⟨⟨hgood, hslots.trans hf.2⟩, hboth⟩

namespace Progress

/-- A frame above the given one has come to an instruction. -/
def Holds (Above : Frame V → Frame V → Prop) (p : Progress V) (index : Nat) (frame : Frame V) : Prop :=
  ∃ present, p.frameAt index = some present ∧ Above present frame

/-- What is true of the state at any time: the frames are good, and only what can be reached has a frame
or an edge. -/
structure Sound (Good : Nat → Frame V → Prop) (flow : Flow) (p : Progress V) : Prop where
  size : p.frames.size = flow.code.size
  frames : ∀ index frame, p.frameAt index = some frame → Good index frame ∧ flow.Reaches index
  edges : ∀ source target, Event.edge source target ∈ p.events →
    flow.Reaches source ∧ flow.Edge source target

/-- The later state knows all that the earlier one knew, and an instruction whose frame is not the same
waits. -/
structure Grows (Above : Frame V → Frame V → Prop) (p q : Progress V) : Prop where
  frames : ∀ index frame, p.frameAt index = some frame → q.Holds Above index frame
  changed : ∀ index, q.frameAt index = p.frameAt index ∨ index ∈ q.pending
  pending : p.pending ⊆ q.pending
  events : p.events ⊆ q.events

variable {d : Domain V} {Good : Nat → Frame V → Prop} {Above : Frame V → Frame V → Prop} {flow : Flow}
  {p q r : Progress V}

theorem Sound.lt_size (hp : p.Sound Good flow) {index : Nat} {frame : Frame V}
    (h : p.frameAt index = some frame) : index < flow.code.size := by
  rw [frameAt, Option.join_eq_some_iff] at h
  rw [← hp.size]
  exact (Array.getElem?_eq_some_iff.1 h).1

theorem Grows.refl (hd : flow.Follows d Good Above) (hp : p.Sound Good flow) : p.Grows Above p where
  frames _ frame h := ⟨frame, h, hd.refl (hp.frames _ _ h).1⟩
  changed _ := .inl rfl
  pending _ h := h
  events _ h := h

/-- What a frame has come to stays covered as the state grows. -/
theorem Holds.mono (hd : flow.Follows d Good Above) (hp : p.Sound Good flow) (hq : q.Sound Good flow)
    (hgrows : p.Grows Above q) {index : Nat} {frame : Frame V} (hframe : Good index frame)
    (h : p.Holds Above index frame) : q.Holds Above index frame := by
  obtain ⟨present, hpresent, habove⟩ := h
  obtain ⟨later, hlater, hlaterAbove⟩ := hgrows.frames _ _ hpresent
  refine ⟨later, hlater, ?_⟩
  exact hd.trans (hq.frames _ _ hlater).1 (hp.frames _ _ hpresent).1 hframe hlaterAbove habove

theorem Grows.trans (hd : flow.Follows d Good Above) (hp : p.Sound Good flow) (hq : q.Sound Good flow)
    (hr : r.Sound Good flow) (hpq : p.Grows Above q) (hqr : q.Grows Above r) : p.Grows Above r where
  frames index frame h :=
    (hpq.frames index frame h).mono hd hq hr hqr (hp.frames _ _ h).1
  changed index := by
    rcases hqr.changed index with hsame | hwaits
    · rcases hpq.changed index with hsame' | hwaits
      · exact .inl (hsame.trans hsame')
      · exact .inr (hqr.pending hwaits)
    · exact .inr hwaits
  pending _ h := hqr.pending (hpq.pending h)
  events _ h := hqr.events (hpq.events h)

end Progress

namespace Analysis

open Progress

variable {d : Domain V} {Good : Nat → Frame V → Prop} {Above : Frame V → Frame V → Prop} {flow : Flow}
  {p q : Progress V}

theorem mem_enqueue_self (index : Nat) (pending : List Nat) : index ∈ enqueue index pending := by
  unfold enqueue
  split
  · next h => simpa using h
  · exact List.mem_cons_self

theorem subset_enqueue (index : Nat) (pending : List Nat) : pending ⊆ enqueue index pending := by
  unfold enqueue
  split
  · exact List.Subset.refl pending
  · exact List.subset_cons_self index pending

/-- The state after a frame was put at an instruction that now waits. -/
theorem grows_set (hd : flow.Follows d Good Above) (hp : p.Sound Good flow) {target : Nat} {frame : Frame V}
    {events : List (Event V)} (hframe : Good target frame) (hreaches : flow.Reaches target)
    (htarget : target < flow.code.size)
    (habove : ∀ present, p.frameAt target = some present → Above frame present)
    (hedges : ∀ source target, Event.edge source target ∈ events →
      Event.edge source target ∈ p.events) (hevents : p.events ⊆ events)
    (hq : q = ⟨p.frames.setIfInBounds target (some frame), enqueue target p.pending, events⟩) :
    q.Sound Good flow ∧ p.Grows Above q ∧ q.frameAt target = some frame := by
  have hin : target < p.frames.size := by rw [hp.size]; exact htarget
  have hself : q.frameAt target = some frame := by
    simp [hq, Progress.frameAt, Array.getElem?_setIfInBounds_self_of_lt hin]
  have hother : ∀ index, index ≠ target → q.frameAt index = p.frameAt index := by
    intro index hne
    simp [hq, Progress.frameAt, Array.getElem?_setIfInBounds_ne (Ne.symm hne)]
  refine ⟨⟨by simp [hq, hp.size], ?_, ?_⟩, ⟨?_, ?_, ?_, ?_⟩, hself⟩
  · intro index g hg
    by_cases hindex : index = target
    · subst hindex
      rw [hself, Option.some.injEq] at hg
      exact hg ▸ ⟨hframe, hreaches⟩
    · exact hp.frames index g (by rwa [hother index hindex] at hg)
  · intro source target' hedge
    rw [hq] at hedge
    exact hp.edges source target' (hedges _ _ hedge)
  · intro index g hg
    by_cases hindex : index = target
    · subst hindex
      exact ⟨frame, hself, habove g hg⟩
    · refine ⟨g, by rw [hother index hindex, hg], ?_⟩
      exact hd.refl (hp.frames index g hg).1
  · intro index
    by_cases hindex : index = target
    · subst hindex
      rw [hq]
      exact .inr (mem_enqueue_self index p.pending)
    · exact .inl (hother index hindex)
  · rw [hq]
    exact subset_enqueue target p.pending
  · rw [hq]
    exact hevents

/-- Noting something that is not an edge changes nothing that matters. -/
theorem grows_note (hd : flow.Follows d Good Above) (hp : p.Sound Good flow) (event : Event V)
    (hedge : ∀ source target, event = .edge source target →
      flow.Reaches source ∧ flow.Edge source target)
    (hq : q = { p with events := event :: p.events }) :
    q.Sound Good flow ∧ p.Grows Above q := by
  subst hq
  refine ⟨⟨hp.size, hp.frames, ?_⟩, (Grows.refl hd hp).frames, fun _ => .inl rfl,
    List.Subset.refl _, List.subset_cons_self _ _⟩
  intro source target h
  rcases List.mem_cons.1 h with heq | hold
  · exact hedge source target heq.symm
  · exact hp.edges source target hold

/-- A frame that arrives is held where it arrives, and the rest of the state only grows. -/
theorem arrive_ok (hd : flow.Follows d Good Above) (hp : p.Sound Good flow) {target : Nat} {frame : Frame V}
    (hframe : Good target frame) (hreaches : flow.Reaches target) (htarget : target < flow.code.size)
    (h : (arrive d target frame).run p = .ok () q) :
    q.Sound Good flow ∧ p.Grows Above q ∧ q.Holds Above target frame := by
  rcases arrive_eq_ok h with ⟨hnone, hq⟩ | ⟨present, merged, changed, hpresent, hmerge, hq⟩
  · obtain ⟨hsound, hgrows, hheld⟩ := grows_set hd hp hframe hreaches htarget
      (fun present hpresent => by rw [hnone] at hpresent; cases hpresent) (fun _ _ hedge => hedge)
      (List.Subset.refl _) hq
    exact ⟨hsound, hgrows, frame, hheld, hd.refl hframe⟩
  · obtain ⟨hgood, habovePresent, haboveFrame, hunchanged⟩ :=
      hd.merge (hp.frames target present hpresent).1 hframe hmerge
    cases changed with
    | true =>
        obtain ⟨hsound, hgrows, hheld⟩ := grows_set hd hp hgood hreaches htarget
          (fun g hg => Option.some.inj (hpresent.symm.trans hg) ▸ habovePresent)
          (fun source target hedge => by simpa using hedge) (List.subset_cons_self _ _) hq
        exact ⟨hsound, hgrows, merged, hheld, haboveFrame⟩
    | false =>
        obtain ⟨hsound, hgrows⟩ := grows_note hd hp (.join present frame) (fun _ _ heq => by simp at heq) hq
        refine ⟨hsound, hgrows, present, ?_, hunchanged rfl ▸ haboveFrame⟩
        rw [hq]
        exact hpresent

/-- What every one of several actions in a row establishes holds after all of them, if it is something
that stays true as the state grows. -/
theorem forM_ok {ι : Type} (hd : flow.Follows d Good Above) {items : List ι} {action : ι → Run V Unit}
    {Q : ι → Progress V → Prop}
    (hstep : ∀ x ∈ items, ∀ p q : Progress V, p.Sound Good flow →
      (action x).run p = .ok () q → q.Sound Good flow ∧ p.Grows Above q ∧ Q x q)
    (hmono : ∀ x ∈ items, ∀ p q : Progress V, p.Sound Good flow → q.Sound Good flow →
      p.Grows Above q → Q x p → Q x q)
    (hp : p.Sound Good flow) (h : (items.forM action).run p = .ok () q) :
    q.Sound Good flow ∧ p.Grows Above q ∧ ∀ x ∈ items, Q x q := by
  induction items generalizing p with
  | nil =>
      simp only [List.forM_eq_forM, List.forM_nil, EStateM.run_pure, EStateM.Result.ok.injEq,
        true_and] at h
      subst h
      exact ⟨hp, Grows.refl hd hp, by simp⟩
  | cons x rest ih =>
      simp only [List.forM_eq_forM, List.forM_cons, EStateM.run_bind] at h
      split at h
      · next middle hfirst =>
          obtain ⟨hmiddle, hgrows, hx⟩ := hstep x List.mem_cons_self p middle hp hfirst
          obtain ⟨hq, hgrows', hrest⟩ :=
            ih (fun y hy => hstep y (List.mem_cons_of_mem x hy)) (fun y hy => hmono y (List.mem_cons_of_mem x hy))
              hmiddle h
          refine ⟨hq, hgrows.trans hd hp hmiddle hq hgrows', ?_⟩
          intro y hy
          rcases List.mem_cons.1 hy with rfl | hy
          · exact hmono y List.mem_cons_self middle q hmiddle hq hgrows' hx
          · exact hrest y hy
      · simp at h

/-- The frame of an instruction has been followed: the instruction executes on it, and the result has
come, along edges that were noted, to all that follows. -/
def Followed (d : Domain V) (Above : Frame V → Frame V → Prop) (flow : Flow) (index : Nat) (before : Frame V)
    (p : Progress V) : Prop :=
  ∃ instr effect after next, flow.code[index]? = some (instr, effect) ∧
    before.execute d index instr effect = .ok after ∧
    flow.successors index instr effect = .ok next ∧
    (∀ target ∈ next, Event.edge index target ∈ p.events ∧ p.Holds Above target after) ∧
    ∀ range ∈ flow.handlers, range.covers index = true →
      p.Holds Above range.handler (before.atHandler d)

theorem arriveAlong_ok (hd : flow.Follows d Good Above) (hp : p.Sound Good flow) {index target : Nat}
    {instr : Instr} {effect : Effect} {next : List Nat} {after : Frame V}
    (hreaches : flow.Reaches index) (hcode : flow.code[index]? = some (instr, effect))
    (hnext : flow.successors index instr effect = .ok next) (htarget : target ∈ next)
    (hafter : Good target after) (h : (arriveAlong d flow index after target).run p = .ok () q) :
    q.Sound Good flow ∧ p.Grows Above q ∧ Event.edge index target ∈ q.events ∧
      q.Holds Above target after := by
  have hedge : flow.Edge index target := ⟨instr, effect, next, hcode, hnext, htarget⟩
  obtain ⟨hsize, harrive⟩ := arriveAlong_eq_ok h
  obtain ⟨hnoted, hgrows⟩ := grows_note hd hp (.edge index target)
    (fun source target' heq => by
      simp only [Event.edge.injEq] at heq
      exact heq.1 ▸ heq.2 ▸ ⟨hreaches, hedge⟩) rfl
  obtain ⟨hq, hgrows', hholds⟩ := arrive_ok hd hnoted hafter (hreaches.edge hedge) hsize harrive
  exact ⟨hq, hgrows.trans hd hp hnoted hq hgrows', hgrows'.events List.mem_cons_self, hholds⟩

theorem arriveAtHandler_ok (hd : flow.Follows d Good Above) (hp : p.Sound Good flow) {index : Nat}
    {range : HandlerRange} {before : Frame V} (hreaches : flow.Reaches index)
    (hrange : range ∈ flow.handlers) (hhandler : range.handler < flow.code.size)
    (hbefore : Good index before) (h : (arriveAtHandler d index before range).run p = .ok () q) :
    q.Sound Good flow ∧ p.Grows Above q ∧
      (range.covers index = true → q.Holds Above range.handler (before.atHandler d)) := by
  rcases arriveAtHandler_eq_ok h with ⟨hcovers, harrive⟩ | ⟨hcovers, rfl⟩
  · obtain ⟨hq, hgrows, hholds⟩ := arrive_ok hd hp (hd.handler hbefore hrange hcovers)
      (hreaches.handler hrange hcovers) hhandler harrive
    exact ⟨hq, hgrows, fun _ => hholds⟩
  · exact ⟨hp, Grows.refl hd hp, fun h => absurd h hcovers⟩

theorem Followed.mono (hd : flow.Follows d Good Above) (hp : p.Sound Good flow) (hq : q.Sound Good flow)
    (hgrows : p.Grows Above q) {index : Nat} {before : Frame V} (hbefore : Good index before)
    (h : Followed d Above flow index before p) : Followed d Above flow index before q := by
  obtain ⟨instr, effect, after, next, hcode, hafter, hnext, hedges, hhandlers⟩ := h
  refine ⟨instr, effect, after, next, hcode, hafter, hnext, ?_, ?_⟩
  · intro target htarget
    have hold := hedges target htarget
    exact ⟨hgrows.events hold.1, hold.2.mono hd hp hq hgrows (hd.next hbefore hcode hafter hnext htarget)⟩
  · intro range hrange hcovers
    exact (hhandlers range hrange hcovers).mono hd hp hq hgrows (hd.handler hbefore hrange hcovers)

/-- Following an instruction lets its frame arrive at everything that comes after it. -/
theorem follow_ok (hd : flow.Follows d Good Above) (hp : p.Sound Good flow)
    (hhandlers : ∀ range ∈ flow.handlers, range.handler < flow.code.size) {index : Nat}
    (h : (follow d flow index).run p = .ok () q) :
    q.Sound Good flow ∧ p.Grows Above q ∧
      ∀ before, p.frameAt index = some before → Followed d Above flow index before q := by
  rcases follow_eq_ok h with
    ⟨instr, effect, before, after, next, middle, hcode, hbefore, hafter, hnext, hmiddle, hlater⟩ | ⟨hmissing, rfl⟩
  · obtain ⟨hgood, hreaches⟩ := hp.frames index before hbefore
    have hgoodAfter : ∀ target ∈ next, Good target after :=
      fun target htarget => hd.next hgood hcode hafter hnext htarget
    obtain ⟨hfirst, hgrows⟩ := grows_note hd hp (.step index before) (fun _ _ heq => by simp at heq) rfl
    -- Both loops are runs of arrivals; the edges are noted in the first one only.
    obtain ⟨hsecond, hgrows', hedges⟩ := forM_ok hd
      (Q := fun target p => Event.edge index target ∈ p.events ∧ p.Holds Above target after)
      (fun target htarget r t hr hrun => arriveAlong_ok hd hr hreaches hcode hnext htarget
        (hgoodAfter target htarget) hrun)
      (fun target htarget r t hr ht hrt hold =>
        ⟨hrt.events hold.1, hold.2.mono hd hr ht hrt (hgoodAfter target htarget)⟩)
      hfirst hmiddle
    obtain ⟨hlast, hgrows'', hholds⟩ := forM_ok hd
      (Q := fun range p => range.covers index = true → p.Holds Above range.handler (before.atHandler d))
      (fun range hrange r t hr hrun => arriveAtHandler_ok hd hr hreaches hrange (hhandlers range hrange) hgood hrun)
      (by
        intro range hrange r t hr ht hrt hold hcovers
        exact (hold hcovers).mono hd hr ht hrt (hd.handler hgood hrange hcovers))
      hsecond hlater
    refine ⟨hlast, (hgrows.trans hd hp hfirst hsecond hgrows').trans hd hp hsecond hlast hgrows'', ?_⟩
    intro present hpresent
    obtain rfl : before = present := Option.some.inj (hbefore.symm.trans hpresent)
    refine ⟨instr, effect, after, next, hcode, hafter, hnext, ?_, hholds⟩
    intro target htarget
    have hedge := hedges target htarget
    exact ⟨hgrows''.events hedge.1, hedge.2.mono hd hsecond hlast hgrows'' (hgoodAfter target htarget)⟩
  · refine ⟨hp, Grows.refl hd hp, ?_⟩
    intro before hbefore
    exact absurd hbefore (hmissing _ _ _ (Array.getElem?_eq_getElem (hp.lt_size hbefore)))

/-- The state between two instructions: the entry frame has arrived, and what does not wait has been
followed. -/
structure Steady (d : Domain V) (Good : Nat → Frame V → Prop) (Above : Frame V → Frame V → Prop) (flow : Flow)
    (entry : Frame V) (p : Progress V) : Prop where
  sound : p.Sound Good flow
  entry : p.Holds Above 0 entry
  followed : ∀ index frame, p.frameAt index = some frame → index ∉ p.pending →
    Followed d Above flow index frame p

/-- Following the instruction that waits first keeps the state steady: what has grown waits, and what has
not grown was followed before or just now. -/
theorem Steady.follow (hd : flow.Follows d Good Above) {entry : Frame V} (hentry : Good 0 entry)
    (hhandlers : ∀ range ∈ flow.handlers, range.handler < flow.code.size) {index : Nat}
    {rest : List Nat} (hp : Steady d Good Above flow entry p) (hpending : p.pending = index :: rest)
    (h : (Analysis.follow d flow index).run { p with pending := rest } = .ok () q) :
    Steady d Good Above flow entry q := by
  have htaken : Sound Good flow { p with pending := rest } :=
    ⟨hp.sound.size, hp.sound.frames, hp.sound.edges⟩
  obtain ⟨hq, hgrows, hfollowed⟩ := follow_ok hd htaken hhandlers h
  refine ⟨hq, ?_, ?_⟩
  · obtain ⟨present, hpresent, habove⟩ := hp.entry
    exact Holds.mono hd htaken hq hgrows hentry ⟨present, hpresent, habove⟩
  · intro other frame hframe hother
    have hsame : p.frameAt other = some frame := by
      rcases hgrows.changed other with hsame | hwaits
      · exact hsame.symm.trans hframe
      · exact absurd hwaits hother
    by_cases hindex : other = index
    · subst hindex
      exact hfollowed frame hsame
    · have hold : other ∉ p.pending := by
        rw [hpending, List.mem_cons, not_or]
        exact ⟨hindex, fun hmem => hother (hgrows.pending hmem)⟩
      exact Followed.mono hd htaken hq hgrows (hp.sound.frames other frame hsame).1
        (hp.followed other frame hsame hold)

theorem settle_ok (hd : flow.Follows d Good Above) {entry : Frame V} (hentry : Good 0 entry)
    (hhandlers : ∀ range ∈ flow.handlers, range.handler < flow.code.size) {budget : Nat}
    (hp : Steady d Good Above flow entry p) (h : (settle d flow budget).run p = .ok () q) :
    Steady d Good Above flow entry q ∧ q.pending = [] :=
  settle_keeps (fun _ _ _ _ hp hpending hrun => hp.follow hd hentry hhandlers hpending hrun) hp h

section Entry

variable {P : V → Prop}

/-- Whatever the values are, the slots on entry hold fresh ones of the same kinds. -/
theorem entryLocals_fresh (d : Domain V) (isStatic : Bool) (params : List TypeDesc) (needed : Nat) :
    entryLocals d isStatic params needed = (entryLocals Domain.kinds isStatic params needed).map (List.map d.fresh) := by
  unfold entryLocals
  generalize (params.mapM _ : Except AnalysisFault (List Kind)) = result
  cases result with
  | error reason => rfl
  | ok kinds =>
      have hreceiver : (if isStatic then [] else [d.fresh .reference]) =
          (if isStatic then [] else [Kind.reference]).map d.fresh := by
        cases isStatic <;> rfl
      have hparams : (kinds.flatMap fun kind =>
            if kind.size == 2 then [d.fresh kind, d.fresh .uninitialized] else [d.fresh kind]) =
          (kinds.flatMap fun kind => if kind.size == 2 then [kind, .uninitialized] else [kind]).map d.fresh := by
        rw [List.map_flatMap]
        refine List.flatMap_congr fun kind _ => ?_
        split <;> rfl
      simp only [bind, Except.bind, pure, Except.pure, Except.map, Domain.kinds, id, hreceiver, hparams,
        List.map_append, List.map_replicate, List.length_append, List.length_map]

theorem entryLocals_good (hfresh : ∀ kind, P (d.fresh kind)) {isStatic : Bool} {params : List TypeDesc}
    {needed : Nat} {locals : List V} (h : entryLocals d isStatic params needed = .ok locals) :
    ∀ a ∈ locals, P a := by
  rw [entryLocals_fresh] at h
  obtain ⟨kinds, -, rfl⟩ := map_eq_ok.1 h
  intro a ha
  obtain ⟨kind, -, rfl⟩ := List.mem_map.1 ha
  exact hfresh kind

/-- On entry there is nothing but the slots for the parameters that the descriptor tells. -/
theorem entryFrame_eq_ok {m : MethodDecl} {entry : Frame V} (h : entryFrame d m = .ok entry) :
    ∃ params locals, Descriptor.parameters m.descriptor = .ok params ∧
      entryLocals d m.isStatic params (max m.slotsUsed m.maxLocals.toNat) = .ok locals ∧ entry = ⟨locals, []⟩ := by
  unfold entryFrame at h
  split at h
  · cases h
  · next params hparams =>
      obtain ⟨locals, hlocals, h⟩ := bind_eq_ok.1 h
      exact ⟨params, locals, hparams, hlocals, (Except.ok.inj h).symm⟩

theorem entryFrame_good (hfresh : ∀ kind, P (d.fresh kind)) {m : MethodDecl} {entry : Frame V}
    (h : entryFrame d m = .ok entry) : entry.Good P := by
  obtain ⟨params, locals, -, hlocals, rfl⟩ := entryFrame_eq_ok h
  exact ⟨entryLocals_good hfresh hlocals, by simp⟩

end Entry

/-- The frames of an analysis that has come to its end, and the edges it has followed, are exactly those
that belong to the flow of the method. -/
structure Complete (d : Domain V) (flow : Flow) (entry : Frame V)
    (frames : Array (Option (Frame V))) (edges : List (Nat × Nat)) : Prop where
  /-- There is room for one frame before each instruction. -/
  size : frames.size = flow.code.size
  /-- The first frame absorbs the entry frame. -/
  entry : ∃ first, frames[0]? = some (some first) ∧ first.merge d entry = .ok (first, false)
  /-- The instructions with a frame are those that can be reached. -/
  reached : ∀ index, (∃ frame, frames[index]? = some (some frame)) ↔ flow.Reaches index
  /-- Every instruction executes on its frame, and the frames that follow absorb the result. -/
  next : ∀ index before, frames[index]? = some (some before) →
    ∃ instr effect after next, flow.code[index]? = some (instr, effect) ∧
      before.execute d index instr effect = .ok after ∧
      flow.successors index instr effect = .ok next ∧
      ∀ target ∈ next, ∃ frame, frames[target]? = some (some frame) ∧
        frame.stack.length = after.stack.length ∧ frame.merge d after = .ok (frame, false)
  /-- The frames of the handlers absorb every frame in their range, with the exception alone on the
  stack. -/
  handlers : ∀ index before, frames[index]? = some (some before) → ∀ range ∈ flow.handlers,
    range.covers index = true → ∃ frame, frames[range.handler]? = some (some frame) ∧
      frame.merge d (before.atHandler d) = .ok (frame, false)
  /-- The edges that were followed are those that start at an instruction that can be reached. -/
  edges : ∀ source target, (source, target) ∈ edges ↔ flow.Reaches source ∧ flow.Edge source target

theorem Complete.lt_size {entry : Frame V} {frames : Array (Option (Frame V))} {edges : List (Nat × Nat)}
    (h : Complete d flow entry frames edges) {index : Nat} (hreach : flow.Reaches index) :
    index < flow.code.size := by
  obtain ⟨frame, hframe⟩ := (h.reached index).2 hreach
  exact h.size ▸ (Array.getElem?_eq_some_iff.1 hframe).1

theorem Complete.exists_next {entry : Frame V} {frames : Array (Option (Frame V))} {edges : List (Nat × Nat)}
    (h : Complete d flow entry frames edges) {index : Nat} (hreach : flow.Reaches index) :
    ∃ instr effect next, flow.code[index]? = some (instr, effect) ∧
      flow.successors index instr effect = .ok next := by
  obtain ⟨before, hbefore⟩ := (h.reached index).2 hreach
  obtain ⟨instr, effect, _, next, hinstr, _, hnext, _⟩ := h.next index before hbefore
  exact ⟨instr, effect, next, hinstr, hnext⟩

theorem steady_start (hd : flow.Follows d Good Above) {entry : Frame V} (hentry : Good 0 entry)
    (hsize : 0 < flow.code.size) :
    Steady d Good Above flow entry
      { frames := (Array.replicate flow.code.size none).setIfInBounds 0 (some entry),
        pending := [0] } := by
  have hframe : ∀ index frame, Progress.frameAt
      { frames := (Array.replicate flow.code.size none).setIfInBounds 0 (some entry),
        pending := [0] } index = some frame ↔ index = 0 ∧ frame = entry := by
    intro index frame
    by_cases hindex : index = 0
    · subst hindex
      simp [Progress.frameAt, hsize, eq_comm]
    · simp [Progress.frameAt, Ne.symm hindex, hindex, Array.getElem?_replicate,
        Option.join_eq_some_iff]
  refine ⟨⟨by simp, ?_, by simp⟩, ?_, ?_⟩
  · intro index frame h
    obtain ⟨rfl, rfl⟩ := (hframe index frame).1 h
    exact ⟨hentry, .entry⟩
  · exact ⟨entry, (hframe 0 entry).2 ⟨rfl, rfl⟩, hd.refl hentry⟩
  · intro index frame h hpending
    simp [((hframe index frame).1 h).1] at hpending

/-- When nothing waits any more, every instruction that can be reached has a frame. -/
theorem Steady.reaches {entry : Frame V} (hp : Steady d Good Above flow entry p) (hpending : p.pending = [])
    {index : Nat} (h : flow.Reaches index) : ∃ frame, p.frameAt index = some frame := by
  have hall : ∀ index frame, p.frameAt index = some frame → Followed d Above flow index frame p :=
    fun index frame hframe => hp.followed index frame hframe (by simp [hpending])
  induction h with
  | entry =>
      obtain ⟨present, hpresent, _⟩ := hp.entry
      exact ⟨present, hpresent⟩
  | edge _ hedge ih =>
      obtain ⟨before, hbefore⟩ := ih
      obtain ⟨instr, effect, next, hcode, hnext, htarget⟩ := hedge
      obtain ⟨instr', effect', _, next', hcode', _, hnext', hfollowed, _⟩ := hall _ _ hbefore
      obtain ⟨rfl, rfl⟩ := Prod.mk.inj (Option.some.inj (hcode.symm.trans hcode'))
      obtain rfl := Except.ok.inj (hnext.symm.trans hnext')
      obtain ⟨present, hpresent, _⟩ := (hfollowed _ htarget).2
      exact ⟨present, hpresent⟩
  | handler _ hrange hcovers ih =>
      obtain ⟨before, hbefore⟩ := ih
      obtain ⟨_, _, _, _, _, _, _, _, hhandlers⟩ := hall _ _ hbefore
      obtain ⟨present, hpresent, _⟩ := hhandlers _ hrange hcovers
      exact ⟨present, hpresent⟩

theorem mem_edges {trace : List (Event V)} {result : Except AnalysisFault (Array (Option (Frame V)))}
    {source target : Nat} :
    (source, target) ∈ edges ⟨trace, result⟩ ↔ Event.edge source target ∈ trace := by
  simp only [edges, List.mem_filterMap]
  constructor
  · rintro ⟨event, hevent, heq⟩
    split at heq
    · simp only [Option.some.injEq, Prod.mk.injEq] at heq
      exact heq.1 ▸ heq.2 ▸ hevent
    · simp at heq
  · intro h
    exact ⟨_, h, rfl⟩

/-- A steady state in which nothing waits is a complete analysis. -/
theorem Steady.complete {P : V → Prop} (hd : d.Lawful P) {entry : Frame V}
    (hp : Steady d Good (Frame.Above d) flow entry p) (hpending : p.pending = []) :
    Complete d flow entry p.frames (edges ⟨p.events.reverse, .ok p.frames⟩) := by
  have hat : ∀ index frame, p.frames[index]? = some (some frame) ↔
      p.frameAt index = some frame := by
    intro index frame
    rw [Progress.frameAt, Option.join_eq_some_iff]
  have hall : ∀ index frame, p.frames[index]? = some (some frame) →
      Followed d (Frame.Above d) flow index frame p :=
    fun index frame hframe => hp.followed index frame ((hat _ _).1 hframe) (by simp [hpending])
  refine ⟨hp.sound.size, ?_, ?_, ?_, ?_, ?_⟩
  · obtain ⟨first, hfirst, habove⟩ := hp.entry
    exact ⟨first, (hat _ _).2 hfirst, Frame.merge_of_above hd habove⟩
  · intro index
    constructor
    · rintro ⟨frame, hframe⟩
      exact (hp.sound.frames index frame ((hat _ _).1 hframe)).2
    · intro hreaches
      obtain ⟨frame, hframe⟩ := hp.reaches hpending hreaches
      exact ⟨frame, (hat _ _).2 hframe⟩
  · intro index before hbefore
    obtain ⟨instr, effect, after, next, hcode, hafter, hnext, htargets, _⟩ := hall _ _ hbefore
    refine ⟨instr, effect, after, next, hcode, hafter, hnext, ?_⟩
    intro target htarget
    obtain ⟨frame, hframe, habove⟩ := (htargets target htarget).2
    exact ⟨frame, (hat _ _).2 hframe, habove.2.length_eq, Frame.merge_of_above hd habove⟩
  · intro index before hbefore range hrange hcovers
    obtain ⟨_, _, _, _, _, _, _, _, hhandlers⟩ := hall _ _ hbefore
    obtain ⟨frame, hframe, habove⟩ := hhandlers range hrange hcovers
    exact ⟨frame, (hat _ _).2 hframe, Frame.merge_of_above hd habove⟩
  · intro source target
    rw [mem_edges, List.mem_reverse]
    constructor
    · exact hp.sound.edges source target
    · rintro ⟨hreaches, instr, effect, next, hcode, hnext, htarget⟩
      obtain ⟨before, hbefore⟩ := hp.reaches hpending hreaches
      obtain ⟨instr', effect', _, next', hcode', _, hnext', htargets, _⟩ :=
        hall _ _ ((hat _ _).2 hbefore)
      obtain ⟨rfl, rfl⟩ := Prod.mk.inj (Option.some.inj (hcode.symm.trans hcode'))
      obtain rfl := Except.ok.inj (hnext.symm.trans hnext')
      exact (htargets target htarget).1

/-- The frames are a complete set for the flow and the entry frame of the method, together with the edges
that its analysis reports. -/
def IsFixpoint (d : Domain V) (m : MethodDecl) (frames : Array (Option (Frame V))) : Prop :=
  ∃ flow entry, Flow.ofMethod m = .ok flow ∧ entryFrame d m = .ok entry ∧
    Complete d flow entry frames (analyze d m).edges

/-- An analysis that gives frames started with the entry frame, and settled in a state with these frames.  Where frames
can be followed, that state is steady and nothing waits. -/
theorem exists_settled {d : Domain V} {m : MethodDecl} {frames : Array (Option (Frame V))} (hcode : m.code ≠ [])
    (h : (analyze d m).result = .ok frames) :
    ∃ flow entry q, Flow.ofMethod m = .ok flow ∧ entryFrame d m = .ok entry ∧ q.frames = frames ∧
      analyze d m = ⟨q.events.reverse, .ok q.frames⟩ ∧
      ∀ Good Above, flow.Follows d Good Above → Good 0 entry →
        Steady d Good Above flow entry q ∧ q.pending = [] := by
  obtain ⟨flow, entry, q, hflow, hentry, hrun, hframes, hanalysis⟩ := exists_settle hcode h
  refine ⟨flow, entry, q, hflow, hentry, hframes, hanalysis, fun Good Above hd hgood => ?_⟩
  have hdescribes := Flow.ofMethod_describes hflow
  have hsize : 0 < flow.code.size := by
    rw [hdescribes.size_eq]
    exact List.length_pos_of_ne_nil hcode
  exact settle_ok hd hgood (fun range hrange => hdescribes.handler_lt hrange) (steady_start hd hgood hsize) hrun

/-- An analysis in a lawful domain that gives frames has come to a steady state in which nothing waits. -/
theorem exists_steady {d : Domain V} {P : V → Prop} (hd : d.Lawful P) {m : MethodDecl}
    {frames : Array (Option (Frame V))} (hcode : m.code ≠ []) (h : (analyze d m).result = .ok frames) :
    ∃ flow entry q, Flow.ofMethod m = .ok flow ∧ entryFrame d m = .ok entry ∧
      Steady d (fun _ => Frame.Fits P entry.locals.length) (Frame.Above d) flow entry q ∧
      q.pending = [] ∧ q.frames = frames ∧ analyze d m = ⟨q.events.reverse, .ok q.frames⟩ := by
  obtain ⟨flow, entry, q, hflow, hentry, hframes, hanalysis, hsteady⟩ := exists_settled hcode h
  obtain ⟨hsteady, hpending⟩ := hsteady _ _ (Flow.follows_of_lawful hd flow entry.locals.length)
    ⟨entryFrame_good hd.good_fresh hentry, rfl⟩
  exact ⟨flow, entry, q, hflow, hentry, hsteady, hpending, hframes, hanalysis⟩

/-- An analysis in a lawful domain that gives frames gives a fixpoint. -/
theorem isFixpoint_of_lawful {d : Domain V} {P : V → Prop} (hd : d.Lawful P) {m : MethodDecl}
    {frames : Array (Option (Frame V))} (hcode : m.code ≠ [])
    (h : (analyze d m).result = .ok frames) : IsFixpoint d m frames := by
  obtain ⟨flow, entry, q, hflow, hentry, hsteady, hpending, rfl, hanalysis⟩ := exists_steady hd hcode h
  refine ⟨flow, entry, hflow, hentry, ?_⟩
  rw [hanalysis]
  exact hsteady.complete hd hpending

/-- The frames of kinds and the frames of origins of a method with code are a fixpoint whenever the
analysis gives them. -/
theorem analyze_isFixpoint (m : MethodDecl) (hcode : m.code ≠ []) :
    (∀ frames, (analyze Domain.kinds m).result = .ok frames → IsFixpoint Domain.kinds m frames) ∧
      ∀ frames, (analyze Domain.origins m).result = .ok frames →
        IsFixpoint Domain.origins m frames :=
  ⟨fun _ h => isFixpoint_of_lawful Domain.kinds_lawful hcode h,
    fun _ h => isFixpoint_of_lawful Domain.origins_lawful hcode h⟩

/-- A loop that counts its argument down; the handler stands in its own range. -/
def countdown : MethodDecl where
  name := "countdown"
  descriptor := "(I)I"
  access := Access.staticBit
  code := [.label ⟨0⟩, .var Opcode.iload 0, .jump Opcode.ifeq ⟨1⟩, .iinc 0 (-1),
    .jump Opcode.goto ⟨0⟩, .label ⟨1⟩, .var Opcode.iload 0, .simple Opcode.ireturn, .label ⟨2⟩,
    .simple Opcode.athrow, .label ⟨3⟩]
  tries := [⟨⟨0⟩, ⟨3⟩, ⟨2⟩, none⟩]

theorem countdown_isFixpoint :
    countdown.code ≠ [] ∧
      (∃ frames, (analyze Domain.kinds countdown).result = .ok frames ∧
        IsFixpoint Domain.kinds countdown frames) ∧
      ∃ frames, (analyze Domain.origins countdown).result = .ok frames ∧
        IsFixpoint Domain.origins countdown frames := by
  have hcode : countdown.code ≠ [] := by decide
  have hkinds : (analyze Domain.kinds countdown).result.isOk = true := by decide +kernel
  have horigins : (analyze Domain.origins countdown).result.isOk = true := by decide +kernel
  obtain ⟨hfirst, hsecond⟩ := analyze_isFixpoint countdown hcode
  refine ⟨hcode, ?_, ?_⟩
  · cases h : (analyze Domain.kinds countdown).result with
    | error reason => simp [h, Except.isOk, Except.toBool] at hkinds
    | ok frames => exact ⟨frames, rfl, hfirst frames h⟩
  · cases h : (analyze Domain.origins countdown).result with
    | error reason => simp [h, Except.isOk, Except.toBool] at horigins
    | ok frames => exact ⟨frames, rfl, hsecond frames h⟩

end Analysis

end Unscramble
