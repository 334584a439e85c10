/-
How long an analysis of kinds takes.  A frame changes only where one of its values falls to the kind of which nothing
is known, and such a value never rises again.  So the first time that an instruction waits is paid for by its frame,
and every further time by a value of this frame; where the frames are small, the budget of visits is not spent.
-/
import Mathlib.Algebra.BigOperators.Group.Finset.Basic
import Mathlib.Algebra.Order.BigOperators.Group.Finset
import Unscramble.Proofs.Fixpoint

namespace Unscramble

variable {V : Type}

namespace Frame

/-- The number of values in a frame, in the local slots and on the stack. -/
def entries (f : Frame V) : Nat :=
  f.locals.length + f.stack.length

/-- The number of values in a frame of which nothing is known. -/
def lost (f : Frame Kind) : Nat :=
  f.locals.count .uninitialized + f.stack.count .uninitialized

theorem lost_le_entries (f : Frame Kind) : f.lost ≤ f.entries :=
  Nat.add_le_add List.count_le_length List.count_le_length

/-- Two kinds are joined to the present one, or to none at a place where one was known. -/
theorem mergeValue_kinds (a b : Kind) :
    mergeValue Domain.kinds a b = (a, false) ∨
      a ≠ .uninitialized ∧ mergeValue Domain.kinds a b = (.uninitialized, true) := by
  by_cases hab : a = b
  · exact .inl (by simp [mergeValue, Domain.kinds, hab])
  · by_cases hlost : a = .uninitialized
    · exact .inl (by simp [mergeValue, Domain.kinds, hlost])
    · exact .inr ⟨hlost, by simp [mergeValue, Domain.kinds, hab, Ne.symm hlost]⟩

/-- Joining kinds slot by slot loses what was known at one slot at least, if it changes anything. -/
theorem mergeValues_kinds {present arriving : List Kind} (hlength : present.length = arriving.length) :
    (mergeValues Domain.kinds present arriving).1.length = present.length ∧
      present.count .uninitialized + (mergeValues Domain.kinds present arriving).2.toNat ≤
        (mergeValues Domain.kinds present arriving).1.count .uninitialized := by
  induction present generalizing arriving with
  | nil => simp [mergeValues]
  | cons a rest ih =>
      cases arriving with
      | nil => simp at hlength
      | cons b others =>
          obtain ⟨ihlength, ihcount⟩ := ih (by simpa using hlength)
          simp only [mergeValues] at ihlength ihcount
          rcases mergeValue_kinds a b with hkept | ⟨hknown, hfell⟩
          · simp only [mergeValues, List.zipWith_cons_cons, hkept, List.map_cons, List.any_cons, Bool.false_or,
              List.length_cons, ihlength, List.count_cons, true_and]
            omega
          · have hbefore : (a == Kind.uninitialized) = false := beq_eq_false_iff_ne.2 hknown
            simp only [mergeValues, List.zipWith_cons_cons, hfell, List.map_cons, List.any_cons, Bool.true_or,
              List.length_cons, ihlength, List.count_cons, hbefore, BEq.rfl, ↓reduceIte, Bool.false_eq_true,
              Bool.toNat_true, true_and]
            omega

/-- Joining frames of kinds loses what was known of one value at least, if it changes anything. -/
theorem merge_kinds {f g merged : Frame Kind} {changed : Bool} (hlocals : f.locals.length = g.locals.length)
    (h : f.merge Domain.kinds g = .ok (merged, changed)) :
    merged.locals.length = f.locals.length ∧ f.lost + changed.toNat ≤ merged.lost := by
  unfold merge at h
  split at h
  · next hstack =>
      simp only [Except.ok.injEq, Prod.mk.injEq] at h
      obtain ⟨rfl, rfl⟩ := h
      obtain ⟨hlength, hlocalsLost⟩ := mergeValues_kinds hlocals
      obtain ⟨-, hstackLost⟩ := mergeValues_kinds hstack
      refine ⟨hlength, ?_⟩
      have hchanged : ∀ a b : Bool, (a || b).toNat ≤ a.toNat + b.toNat := by decide
      have hboth := hchanged (mergeValues Domain.kinds f.locals g.locals).2 (mergeValues Domain.kinds f.stack g.stack).2
      simp only [lost]
      omega
  · cases h

end Frame

/-- The instruction that an event says was followed. -/
def Event.followed? : Event V → Option Nat
  | .step index _ => some index
  | _ => none

/-- The instruction that was taken from those that wait when an analysis failed, if that left no step. -/
def AnalysisFault.taken : AnalysisFault → List Nat
  | execute index _ _ => [index]
  | diverged index => [index]
  | _ => []

/-- The instructions that were followed so far, the latest first. -/
def Progress.visited (p : Progress V) : List Nat :=
  p.events.filterMap Event.followed?

/-- How often an instruction may have come to wait so far: once when it got its frame, and once for each value of the
frame that was lost. -/
def Progress.worth (p : Progress Kind) (index : Nat) : Nat :=
  (p.frameAt index).elim 0 fun frame => 1 + frame.lost

/-- The number of values in the frame of an instruction and one more; nothing for an instruction without a frame. -/
def Progress.room (p : Progress V) (index : Nat) : Nat :=
  (p.frameAt index).elim 0 fun frame => 1 + frame.entries

theorem Progress.worth_le_room (p : Progress Kind) (index : Nat) : p.worth index ≤ p.room index := by
  unfold worth room
  cases p.frameAt index with
  | none => exact Nat.le_refl _
  | some frame => exact Nat.add_le_add_left frame.lost_le_entries 1

namespace Analysis

/-- The visits of an analysis in order: the instructions that were taken from those that wait.  One that does not
execute and one that the budget does not cover leave no step. -/
def visits (a : Analysis V) : List Nat :=
  a.trace.filterMap Event.followed? ++
    match a.result with
    | .ok _ => []
    | .error reason => reason.taken

/-- The state in which the first instruction waits with the frame on entry. -/
def start (flow : Flow) (entry : Frame V) : Progress V :=
  { frames := (Array.replicate flow.code.size none).setIfInBounds 0 (some entry), pending := [0] }

/-- The end of an analysis with the state that it leaves. -/
def outcome (d : Domain V) (m : MethodDecl) : EStateM.Result AnalysisFault (Progress V) Unit :=
  if m.code.isEmpty then .ok () { frames := #[] }
  else
    match Flow.ofMethod m, entryFrame d m with
    | .error reason, _ => .error reason { frames := #[] }
    | .ok _, .error reason => .error reason { frames := #[] }
    | .ok flow, .ok entry =>
        (settle d flow (flow.code.size * visitsPerInstr)).run (start flow entry)

/-- The state that an analysis leaves, whether it fails or not. -/
def lastState (d : Domain V) (m : MethodDecl) : Progress V :=
  match outcome d m with
  | .ok _ p => p
  | .error _ p => p

/-- What an analysis gives is read off its outcome. -/
theorem analyze_eq (d : Domain V) (m : MethodDecl) :
    analyze d m = ⟨(lastState d m).events.reverse,
      match outcome d m with
      | .ok _ p => .ok p.frames
      | .error reason _ => .error reason⟩ := by
  unfold analyze lastState outcome
  split
  · rfl
  · cases Flow.ofMethod m with
    | error reason => rfl
    | ok flow =>
        cases entryFrame d m with
        | error reason => rfl
        | ok entry =>
            change (match (settle d flow (flow.code.size * visitsPerInstr)).run (start flow entry) with
              | .ok _ p => Analysis.mk p.events.reverse (.ok p.frames)
              | .error reason p => Analysis.mk p.events.reverse (.error reason)) = _
            dsimp only
            cases (settle d flow (flow.code.size * visitsPerInstr)).run (start flow entry) <;> rfl

/-- Every visit of an instruction so far was paid for. -/
structure Covered (flow : Flow) (visited : List Nat) (p : Progress Kind) : Prop where
  size : p.frames.size = flow.code.size
  count_le : ∀ index, visited.count index ≤ p.worth index

/-- The given visits were paid for, and so are those of the instructions that wait.  All frames have the same number of
local slots. -/
structure Paid (flow : Flow) (slots : Nat) (visited : List Nat) (p : Progress Kind) : Prop
    extends Covered flow (visited ++ p.pending) p where
  slots : ∀ index frame, p.frameAt index = some frame → frame.locals.length = slots

/-- An action leaves a state in which the given visits were paid for, and are those that the state and the reason of a
failure tell.  The budget is not such a reason. -/
def Leaves (flow : Flow) (slots : Nat) (visited : List Nat) : EStateM.Result AnalysisFault (Progress Kind) Unit → Prop
  | .ok _ q => Paid flow slots visited q ∧ q.visited = visited
  | .error reason q =>
      Paid flow slots visited q ∧ reason.taken ++ q.visited = visited ∧ ∀ index, reason ≠ .diverged index

variable {flow : Flow} {slots : Nat} {visited : List Nat} {p : Progress Kind}

theorem exists_frameAt {index : Nat} (h : 0 < p.worth index) : ∃ frame, p.frameAt index = some frame := by
  cases hframe : p.frameAt index with
  | none => simp [Progress.worth, hframe] at h
  | some frame => exact ⟨frame, rfl⟩

theorem count_enqueue_le (index target : Nat) (pending : List Nat) :
    (enqueue target pending).count index ≤ pending.count index + if target = index then 1 else 0 := by
  unfold enqueue
  split
  · exact Nat.le_add_right _ _
  · rw [List.count_cons]
    simp only [beq_iff_eq, Nat.le_refl]

/-- What has happened so far does not pay. -/
theorem Paid.withEvents (hp : Paid flow slots visited p) (events : List (Event Kind)) :
    Paid flow slots visited { p with events } :=
  ⟨⟨hp.size, hp.count_le⟩, hp.slots⟩

/-- A frame that is put at an instruction pays for making it wait, if it is worth more than what stood there. -/
theorem Paid.set (hp : Paid flow slots visited p) {target : Nat} {frame : Frame Kind} {events : List (Event Kind)}
    (htarget : target < flow.code.size) (hslots : frame.locals.length = slots)
    (hworth : p.worth target ≤ frame.lost) :
    Paid flow slots visited ⟨p.frames.setIfInBounds target (some frame), enqueue target p.pending, events⟩ := by
  have hin : target < p.frames.size := by rw [hp.size]; exact htarget
  have hat : ∀ index, Progress.frameAt
      ⟨p.frames.setIfInBounds target (some frame), enqueue target p.pending, events⟩ index =
        if target = index then some frame else p.frameAt index := by
    intro index
    by_cases hindex : target = index
    · subst hindex
      simp [Progress.frameAt, Array.getElem?_setIfInBounds_self_of_lt hin]
    · simp [Progress.frameAt, Array.getElem?_setIfInBounds_ne hindex, hindex]
  refine ⟨⟨by simp [hp.size], fun index => ?_⟩, fun index g hg => ?_⟩
  · have hcount := hp.count_le index
    have hwaits := count_enqueue_le index target p.pending
    rw [List.count_append] at hcount ⊢
    by_cases hindex : target = index
    · subst hindex
      simp only [Progress.worth, hat, ↓reduceIte, Option.elim_some] at hwaits ⊢
      omega
    · simp only [Progress.worth, hat, hindex, ↓reduceIte] at hcount hwaits ⊢
      omega
  · rw [hat] at hg
    split at hg
    · exact Option.some.inj hg ▸ hslots
    · exact hp.slots index g hg

theorem note_run (event : Event V) (p : Progress V) :
    (note event).run p = .ok () { p with events := event :: p.events } :=
  rfl

/-- One action after another. -/
theorem Leaves.bind {action next : Run Kind Unit} (h : Leaves flow slots visited (action.run p))
    (hnext : ∀ q, Paid flow slots visited q → q.visited = visited → Leaves flow slots visited (next.run q)) :
    Leaves flow slots visited ((action >>= fun _ => next).run p) := by
  rw [EStateM.run_bind]
  split
  · next q hq =>
      rw [hq] at h
      exact hnext q h.1 h.2
  · next reason q hq =>
      rw [hq] at h
      exact h

theorem arrive_leaves (hp : Paid flow slots visited p) (hvisited : p.visited = visited) {target : Nat}
    {frame : Frame Kind} (htarget : target < flow.code.size) (hslots : frame.locals.length = slots) :
    Leaves flow slots visited ((arrive Domain.kinds target frame).run p) := by
  simp only [arrive, EStateM.run_bind, EStateM.run_get]
  split
  · next hnone =>
      refine ⟨hp.set htarget hslots ?_, hvisited⟩
      simp [Progress.worth, Progress.frameAt, hnone]
  · next present hpresent =>
      have hpresentSlots : present.locals.length = slots := hp.slots target present hpresent
      split
      · exact ⟨hp, hvisited, fun _ => by simp⟩
      · next merged changed hmerge =>
          obtain ⟨hlocals, hlost⟩ := Frame.merge_kinds (hpresentSlots.trans hslots.symm) hmerge
          simp only [EStateM.run_bind, note_run]
          split
          · next hchanged =>
              refine ⟨hp.set htarget (hlocals.trans hpresentSlots) ?_, hvisited⟩
              rw [hchanged, Bool.toNat_true] at hlost
              simpa [Progress.worth, Progress.frameAt, hpresent, Nat.add_comm] using hlost
          · exact ⟨hp.withEvents _, hvisited⟩

theorem arriveAlong_leaves (hp : Paid flow slots visited p) (hvisited : p.visited = visited) (index : Nat)
    {target : Nat} {after : Frame Kind} (hslots : after.locals.length = slots) :
    Leaves flow slots visited ((arriveAlong Domain.kinds flow index after target).run p) := by
  by_cases htarget : flow.code.size ≤ target
  · simp only [arriveAlong, htarget, ↓reduceIte]
    exact ⟨hp, hvisited, fun _ => by simp⟩
  · simp only [arriveAlong, htarget, ↓reduceIte, EStateM.run_bind, note_run]
    exact arrive_leaves (hp.withEvents (.edge index target :: p.events)) hvisited (Nat.lt_of_not_le htarget) hslots

theorem arriveAtHandler_leaves (hp : Paid flow slots visited p) (hvisited : p.visited = visited) (index : Nat)
    {range : HandlerRange} {before : Frame Kind} (hhandler : range.handler < flow.code.size)
    (hslots : before.locals.length = slots) :
    Leaves flow slots visited ((arriveAtHandler Domain.kinds index before range).run p) := by
  by_cases hcovers : range.covers index = true
  · simp only [arriveAtHandler, hcovers, ↓reduceIte]
    exact arrive_leaves hp hvisited hhandler hslots
  · simp only [arriveAtHandler, hcovers, Bool.false_eq_true, ↓reduceIte]
    exact ⟨hp, hvisited⟩

/-- Actions in a row leave what each of them leaves. -/
theorem forM_leaves {ι : Type} {items : List ι} {action : ι → Run Kind Unit}
    (hstep : ∀ x ∈ items, ∀ p : Progress Kind, Paid flow slots visited p → p.visited = visited →
      Leaves flow slots visited ((action x).run p))
    (hp : Paid flow slots visited p) (hvisited : p.visited = visited) :
    Leaves flow slots visited ((items.forM action).run p) := by
  induction items generalizing p with
  | nil => exact ⟨hp, hvisited⟩
  | cons x rest ih =>
      have hfirst := hstep x List.mem_cons_self p hp hvisited
      rw [List.forM_eq_forM, List.forM_cons]
      exact hfirst.bind fun q hq hsame => ih (fun y hy => hstep y (List.mem_cons_of_mem x hy)) hq hsame

/-- What follows an instruction is unknown only where it jumps to an unknown label. -/
theorem successors_eq_error {index : Nat} {instr : Instr} {effect : Effect} {reason : AnalysisFault}
    (h : flow.successors index instr effect = .error reason) :
    ∃ label, reason = .unknownLabel label := by
  have htarget : ∀ label, flow.target label = .error reason → ∃ label, reason = .unknownLabel label := by
    intro label hlabel
    unfold Flow.target at hlabel
    split at hlabel
    · cases hlabel
    · exact ⟨label, (Except.error.inj hlabel).symm⟩
  have htargets : ∀ labels : List Label, labels.mapM flow.target = .error reason →
      ∃ label, reason = .unknownLabel label := by
    intro labels hlabels
    obtain ⟨label, -, hlabel⟩ := mapM_eq_error hlabels
    exact htarget label hlabel
  unfold Flow.successors at h
  split at h
  · next op label =>
      rcases bind_eq_error.1 h with hlabel | ⟨place, -, h⟩
      · exact htarget label hlabel
      · cases h
  · exact htargets _ h
  · exact htargets _ h
  · split at h <;> cases h

/-- Following an instruction that was paid for is one visit more. -/
theorem follow_leaves (hhandlers : ∀ range ∈ flow.handlers, range.handler < flow.code.size) {index : Nat}
    (hp : Paid flow slots (index :: p.visited) p) :
    Leaves flow slots (index :: p.visited) ((follow Domain.kinds flow index).run p) := by
  have hworth : 0 < p.worth index := by
    have hcount := hp.count_le index
    rw [List.cons_append, List.count_cons_self] at hcount
    omega
  obtain ⟨before, hbefore⟩ := exists_frameAt hworth
  have hslots := hp.slots index before hbefore
  simp only [follow, EStateM.run_bind, EStateM.run_get]
  split
  · next instr effect frame hcode hframe =>
      obtain rfl : before = frame := Option.some.inj (hbefore.symm.trans hframe)
      split
      · next reason hexecute => exact ⟨hp, rfl, fun _ => by simp⟩
      · next after hafter =>
          have hafterSlots : after.locals.length = slots :=
            (Frame.execute_ok (Domain.kinds_lawful.makes index instr) ⟨fun _ _ => trivial, fun _ _ => trivial⟩
              hafter).2.trans hslots
          have hnoted := hp.withEvents (.step index before :: p.events)
          rw [EStateM.run_bind, note_run]
          dsimp only
          cases hnext : flow.successors index instr effect with
          | error reason =>
              obtain ⟨label, rfl⟩ := successors_eq_error hnext
              exact ⟨hnoted, rfl, fun _ => by simp⟩
          | ok next =>
              simp only [MonadExcept.ofExcept, pure_bind]
              -- Both loops are runs of arrivals; the edges are noted in the first one only.
              refine Leaves.bind (forM_leaves (fun target _ q hq hvisited =>
                arriveAlong_leaves hq hvisited index hafterSlots) hnoted rfl) fun q hq hvisited => ?_
              exact forM_leaves (fun range hrange r hr hsame =>
                arriveAtHandler_leaves hr hsame index (hhandlers range hrange) hslots) hq hvisited
  · next hmissing =>
      have hlt : index < flow.code.size := by
        rw [Progress.frameAt, Option.join_eq_some_iff] at hbefore
        exact hp.size ▸ (Array.getElem?_eq_some_iff.1 hbefore).1
      exact absurd hbefore (hmissing _ _ _ (Array.getElem?_eq_getElem hlt))

/-- An analysis ends with every visit paid for; the visits tell when the budget was spent. -/
def Ends (flow : Flow) (limit : Nat) : EStateM.Result AnalysisFault (Progress Kind) Unit → Prop
  | .ok _ q => Covered flow q.visited q
  | .error reason q =>
      Covered flow (reason.taken ++ q.visited) q ∧ ∀ index, reason = .diverged index → q.visited.length = limit

theorem Covered.of_append {others : List Nat} (h : Covered flow (visited ++ others) p) : Covered flow visited p := by
  refine ⟨h.size, fun index => ?_⟩
  have hcount := h.count_le index
  rw [List.count_append] at hcount
  omega

theorem settle_ends (hhandlers : ∀ range ∈ flow.handlers, range.handler < flow.code.size) (budget : Nat)
    (hp : Paid flow slots p.visited p) :
    Ends flow (p.visited.length + budget) ((settle Domain.kinds flow budget).run p) := by
  induction budget generalizing p with
  | zero =>
      simp only [settle, EStateM.run_bind, EStateM.run_get]
      split
      · exact hp.toCovered.of_append
      · next index rest hpending =>
          -- The visit that the budget does not cover is that of the first one that waits, which was paid for.
          refine ⟨⟨hp.size, fun other => ?_⟩, fun _ _ => rfl⟩
          have hcount := hp.count_le other
          rw [hpending] at hcount
          simp only [AnalysisFault.taken, List.cons_append, List.nil_append, List.count_append,
            List.count_cons] at hcount ⊢
          omega
  | succ budget ih =>
      simp only [settle, EStateM.run_bind, EStateM.run_get]
      split
      · exact hp.toCovered.of_append
      · next index rest hpending =>
          have htaken : Paid flow slots (index :: p.visited) { p with pending := rest } := by
            refine ⟨⟨hp.size, fun other => ?_⟩, hp.slots⟩
            have hcount := hp.count_le other
            rw [hpending] at hcount
            change _ ≤ p.worth other
            simp only [List.cons_append, List.count_append, List.count_cons] at hcount ⊢
            omega
          have hfollow := follow_leaves (p := { p with pending := rest }) hhandlers htaken
          simp only [EStateM.run_bind, EStateM.run_modify]
          split
          · next q hq =>
              rw [hq] at hfollow
              have hrest := ih (hfollow.2 ▸ hfollow.1)
              rw [hfollow.2, List.length_cons, Nat.add_right_comm] at hrest
              exact hrest
          · next reason q hq =>
              rw [hq] at hfollow
              obtain ⟨hpaid, hvisited, hfault⟩ := hfollow
              exact ⟨hvisited ▸ hpaid.toCovered.of_append, fun i hi => absurd hi (hfault i)⟩

/-- At the start the first instruction waits, and its frame pays for it. -/
theorem paid_start (hsize : 0 < flow.code.size) (entry : Frame Kind) :
    Paid flow entry.locals.length (start flow entry).visited (start flow entry) := by
  have hd := Flow.follows_of_lawful Domain.kinds_lawful flow entry.locals.length
  have hgood : Frame.Fits (fun _ => True) entry.locals.length entry :=
    ⟨⟨fun _ _ => trivial, fun _ _ => trivial⟩, rfl⟩
  have hstart := steady_start hd hgood hsize
  refine ⟨⟨by simp [start], fun index => ?_⟩, fun index g hg => (hstart.sound.frames index g hg).1.2⟩
  by_cases hindex : index = 0
  · subst hindex
    simp [start, Progress.visited, Progress.worth, Progress.frameAt, hsize]
  · simp [start, Progress.visited, Ne.symm hindex]

/-- A method whose instructions or handlers cannot be read is not visited at all. -/
theorem taken_of_ofMethod {m : MethodDecl} {reason : AnalysisFault} (h : Flow.ofMethod m = .error reason) :
    reason.taken = [] := by
  rcases bind_eq_error.1 h with hhandlers | ⟨handlers, -, h⟩
  · obtain ⟨block, -, hblock⟩ := mapM_eq_error hhandlers
    have hfind : ∀ label, Flow.handlerRanges.find (labelPlaces m.code) label = .error reason →
        reason.taken = [] := by
      intro label hlabel
      unfold Flow.handlerRanges.find at hlabel
      split at hlabel
      · cases hlabel
      · rw [← Except.error.inj hlabel]
        rfl
    rcases bind_eq_error.1 hblock with hstart | ⟨start, -, hblock⟩
    · exact hfind _ hstart
    · rcases bind_eq_error.1 hblock with hstop | ⟨stop, -, hblock⟩
      · exact hfind _ hstop
      · rcases bind_eq_error.1 hblock with hhandler | ⟨handler, -, hblock⟩
        · exact hfind _ hhandler
        · cases hblock
  · rcases bind_eq_error.1 h with hcode | ⟨code, -, h⟩
    · obtain ⟨⟨instr, index⟩, -, hinstr⟩ := mapM_eq_error hcode
      dsimp only at hinstr
      split at hinstr
      · cases hinstr
      · rw [← Except.error.inj hinstr]
        rfl
    · cases h

/-- A method without an entry frame is not visited at all. -/
theorem taken_of_entryFrame {d : Domain V} {m : MethodDecl} {reason : AnalysisFault}
    (h : entryFrame d m = .error reason) : reason.taken = [] := by
  unfold entryFrame at h
  split at h
  · rw [← Except.error.inj h]
    rfl
  · rcases bind_eq_error.1 h with hlocals | ⟨locals, -, h⟩
    · rcases bind_eq_error.1 hlocals with hkinds | ⟨kinds, -, hlocals⟩
      · obtain ⟨type, -, htype⟩ := mapM_eq_error hkinds
        split at htype
        · cases htype
        · rw [← Except.error.inj htype]
          rfl
      · cases hlocals
    · cases h

theorem outcome_ends (m : MethodDecl) :
    ∃ flow : Flow, flow.code.size ≤ m.code.length ∧
      Ends flow (m.code.length * visitsPerInstr) (outcome Domain.kinds m) := by
  -- An analysis that fails before its first visit ends like one of no code.
  have hnothing : ∀ {reason : AnalysisFault}, reason.taken = [] →
      ∃ flow : Flow, flow.code.size ≤ m.code.length ∧
        Ends flow (m.code.length * visitsPerInstr) (.error reason { frames := #[] }) := by
    intro reason htaken
    refine ⟨⟨#[], [], []⟩, Nat.zero_le _, ⟨rfl, by simp [htaken, Progress.visited]⟩, ?_⟩
    rintro index rfl
    cases htaken
  unfold outcome
  split
  · exact ⟨⟨#[], [], []⟩, Nat.zero_le _, rfl, by simp [Progress.visited]⟩
  · next hcode =>
      cases hflow : Flow.ofMethod m with
      | error reason => exact hnothing (taken_of_ofMethod hflow)
      | ok flow =>
          cases hentry : entryFrame Domain.kinds m with
          | error reason => exact hnothing (taken_of_entryFrame hentry)
          | ok entry =>
              have hdescribes := Flow.ofMethod_describes hflow
              have hsize : 0 < flow.code.size := by
                rw [hdescribes.size_eq]
                exact List.length_pos_of_ne_nil (by simpa using hcode)
              have hends := settle_ends (fun range hrange => hdescribes.handler_lt hrange)
                (flow.code.size * visitsPerInstr) (paid_start hsize entry)
              refine ⟨flow, hdescribes.size_eq.le, ?_⟩
              rw [← hdescribes.size_eq]
              rwa [show (start flow entry).visited.length = 0 from rfl, Nat.zero_add] at hends

/-- The frames that an analysis of kinds leaves have paid for its visits, which tell when the budget was spent. -/
theorem covered_visits (m : MethodDecl) :
    ∃ flow : Flow, flow.code.size ≤ m.code.length ∧
      Covered flow (analyze Domain.kinds m).visits (lastState Domain.kinds m) ∧
      ∀ index, (analyze Domain.kinds m).result = .error (.diverged index) →
        (analyze Domain.kinds m).visits.length = m.code.length * visitsPerInstr + 1 := by
  obtain ⟨flow, hsize, hends⟩ := outcome_ends m
  refine ⟨flow, hsize, ?_⟩
  rw [analyze_eq]
  unfold lastState visits
  cases houtcome : outcome Domain.kinds m with
  | ok u p =>
      rw [houtcome] at hends
      refine ⟨⟨hends.size, fun index => ?_⟩, fun _ h => by cases h⟩
      simpa [Progress.visited, List.filterMap_reverse] using hends.count_le index
  | error reason p =>
      rw [houtcome] at hends
      obtain ⟨hcovered, hspent⟩ := hends
      refine ⟨⟨hcovered.size, fun index => ?_⟩, fun index h => ?_⟩
      · have hcount := hcovered.count_le index
        rw [List.count_append] at hcount
        simpa [Progress.visited, List.filterMap_reverse, Nat.add_comm] using hcount
      · obtain rfl := Except.error.inj h
        have hlength := hspent index rfl
        simpa [Progress.visited, List.filterMap_reverse, AnalysisFault.taken] using hlength

/-- An analysis of kinds visits an instruction at most once and once more for each value in its frame.  So its visits
stay within the budget where no frame that it has made has more than 511 values, and it fails for want of a budget only
where some frame has more. -/
theorem analyze_visits_le (m : MethodDecl) :
    (∀ index, (analyze Domain.kinds m).visits.count index ≤ (lastState Domain.kinds m).room index) ∧
      (analyze Domain.kinds m).visits.length ≤
        ∑ index ∈ Finset.range m.code.length, (lastState Domain.kinds m).room index ∧
      ((∀ index frame, (lastState Domain.kinds m).frameAt index = some frame → frame.entries ≤ 511) →
        (analyze Domain.kinds m).visits.length ≤ m.code.length * visitsPerInstr ∧
          ∀ index, (analyze Domain.kinds m).result ≠ .error (.diverged index)) ∧
      ∀ index, (analyze Domain.kinds m).result = .error (.diverged index) →
        (analyze Domain.kinds m).visits.length = m.code.length * visitsPerInstr + 1 ∧
          ∃ place frame, (lastState Domain.kinds m).frameAt place = some frame ∧ 511 < frame.entries := by
  obtain ⟨flow, hsize, hcovered, hspent⟩ := covered_visits m
  generalize lastState Domain.kinds m = p at hcovered ⊢
  generalize (analyze Domain.kinds m).visits = visits at hcovered hspent ⊢
  have hcount : ∀ index, visits.count index ≤ p.room index :=
    fun index => (hcovered.count_le index).trans (p.worth_le_room index)
  have hplaces : ∀ index ∈ visits, index ∈ Finset.range m.code.length := by
    intro index hindex
    obtain ⟨frame, hframe⟩ := exists_frameAt ((List.count_pos_iff.2 hindex).trans_le (hcovered.count_le index))
    rw [Progress.frameAt, Option.join_eq_some_iff] at hframe
    have hlt : index < flow.code.size := hcovered.size ▸ (Array.getElem?_eq_some_iff.1 hframe).1
    exact Finset.mem_range.2 (hlt.trans_le hsize)
  have hlength : visits.length ≤ ∑ index ∈ Finset.range m.code.length, p.room index := by
    rw [← Multiset.coe_card, ← Multiset.sum_count_eq_card hplaces]
    exact Finset.sum_le_sum fun index _ => by simpa using hcount index
  have hbudget : (∀ index frame, p.frameAt index = some frame → frame.entries ≤ 511) →
      visits.length ≤ m.code.length * visitsPerInstr := by
    intro hsmall
    refine hlength.trans ((Finset.sum_le_card_nsmul _ _ visitsPerInstr fun index _ => ?_).trans (by simp))
    unfold Progress.room
    cases hframe : p.frameAt index with
    | none => exact Nat.zero_le _
    | some frame => exact Nat.add_le_add_left (hsmall index frame hframe) 1
  have hconverges : (∀ index frame, p.frameAt index = some frame → frame.entries ≤ 511) →
      ∀ index, (analyze Domain.kinds m).result ≠ .error (.diverged index) := by
    intro hsmall index hdiverged
    have hlimit := hspent index hdiverged
    have hwithin := hbudget hsmall
    omega
  refine ⟨hcount, hlength, fun hsmall => ⟨hbudget hsmall, hconverges hsmall⟩, fun index hdiverged => ?_⟩
  refine ⟨hspent index hdiverged, ?_⟩
  by_contra hnone
  simp only [not_exists, not_and, Nat.not_lt] at hnone
  exact hconverges hnone index hdiverged

theorem countdown_visits_le :
    (∀ index frame, (lastState Domain.kinds countdown).frameAt index = some frame → frame.entries ≤ 511) ∧
      (analyze Domain.kinds countdown).visits.length ≤ countdown.code.length * visitsPerInstr := by
  have hframes : (lastState Domain.kinds countdown).frames.all (·.all (·.entries ≤ 511)) = true := by decide +kernel
  have hsmall : ∀ index frame, (lastState Domain.kinds countdown).frameAt index = some frame →
      frame.entries ≤ 511 := by
    intro index frame hframe
    rw [Progress.frameAt, Option.join_eq_some_iff] at hframe
    simpa using Array.all_eq_true_iff_forall_mem.1 hframes _ (Array.mem_of_getElem? hframe)
  exact ⟨hsmall, ((analyze_visits_le countdown).2.2.1 hsmall).1⟩

example : (analyze Domain.kinds countdown).visits = [0, 8, 9, 1, 2, 5, 6, 7, 3, 4] := by decide +kernel

end Analysis

end Unscramble
