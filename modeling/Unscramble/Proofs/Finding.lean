/-
Finding multipliers never fails.  Every constant that the scan of a method notes is a multiplier, and the rounds of the
solver keep that, so nothing that is ever inverted is even.  A round uses up more of what waits than it brings in:
assignments become candidates one for one, and the settled field is gone.  The decoders are multipliers in the end, and
so are the numbers of either width that are made from them when accesses are rewritten.
-/
import Mathlib.Data.List.Chain
import Unscramble.Multiplier.Cancel
import Unscramble.Multiplier.Scan
import Unscramble.Proofs.Residues
import Unscramble.Proofs.Settling
import Unscramble.Proofs.Traversals

namespace Unscramble.Multiplier

namespace Pending

variable {pending rest : Pending} {field other : String} {c d : Candidate}

/-- Taking a candidate away leaves at most the other fields and candidates. -/
theorem remove?_keeps (h : remove? field c pending = some rest) :
    rest.fields.Sublist pending.fields ∧ ∀ other d, rest.Has other d → pending.Has other d := by
  induction pending generalizing rest with
  | nil => cases h
  | cons entry later ih =>
      obtain ⟨key, candidates⟩ := entry
      rw [remove?] at h
      split at h
      · split at h
        · split at h
          · obtain rfl := Option.some.inj h
            exact ⟨List.sublist_cons_self key _, fun other d ⟨found, hfound, hd⟩ =>
              ⟨found, List.mem_cons_of_mem _ hfound, hd⟩⟩
          · obtain rfl := Option.some.inj h
            refine ⟨List.Sublist.refl _, fun other d ⟨found, hfound, hd⟩ => ?_⟩
            rcases List.mem_cons.1 hfound with heq | hlater
            · obtain ⟨rfl, rfl⟩ := Prod.mk.inj heq
              refine ⟨candidates, List.mem_cons_self, ?_⟩
              exact List.mem_reverse.1 (List.mem_of_mem_erase (List.mem_reverse.1 hd))
            · exact ⟨found, List.mem_cons_of_mem _ hlater, hd⟩
        · cases h
      · obtain ⟨others, hothers, rfl⟩ := Option.map_eq_some_iff.1 h
        obtain ⟨hfields, hhas⟩ := ih hothers
        refine ⟨hfields.cons_cons key, fun other d ⟨found, hfound, hd⟩ => ?_⟩
        rcases List.mem_cons.1 hfound with heq | hlater
        · exact ⟨found, List.mem_cons.2 (.inl heq), hd⟩
        · obtain ⟨found', hfound', hd'⟩ := hhas other d ⟨found, hlater, hd⟩
          exact ⟨found', List.mem_cons_of_mem _ hfound', hd'⟩

end Pending

namespace Scan

variable {code : Array Instr} {left right value : Tracked} {put : String} {s : Scan}

theorem isMultiplier_of_fieldProduct? {p : FieldProduct} (h : fieldProduct? code left right = some p) :
    p.value.isMultiplier = true := by
  have htested {constantAt : Nat} {n : Number} {field : String}
      (h : (if n.isMultiplier then some (⟨field, constantAt, n⟩ : FieldProduct) else none) = some p) :
      p.value.isMultiplier = true := by
    split at h
    · next hmultiplier =>
        obtain rfl := Option.some.inj h
        exact hmultiplier
    · cases h
  unfold fieldProduct? at h
  split at h
  · exact htested h
  · obtain ⟨_, -, h⟩ := Option.bind_eq_some_iff.1 h
    obtain ⟨_, -, h⟩ := Option.bind_eq_some_iff.1 h
    exact htested h

theorem sound_countStore (hs : s.system.Sound) (constantAt : Nat) (n : Number) (other : Tracked) :
    (s.countStore put constantAt n other).system.Sound := by
  unfold countStore
  split
  · next hnew =>
      have hmultiplier : n.isMultiplier = true := ((Bool.and_eq_true _ _).mp hnew).1
      dsimp only
      split
      · exact System.sound_observe hs put hmultiplier
      · exact System.sound_assign hs _
  · exact hs

theorem sound_countAssignment (hs : s.system.Sound) (p : FieldProduct) : (s.countAssignment put p).system.Sound := by
  refine System.sound_assign ?_ _
  cases hremove : s.system.pending.remove? p.field (.decoding p.value) with
  | none => exact ⟨hs.fields, hs.candidates, hs.decoders⟩
  | some rest =>
      obtain ⟨hfields, hhas⟩ := Pending.remove?_keeps hremove
      exact ⟨hs.fields.sublist hfields, fun field c hc => hs.candidates field c (hhas field c hc), hs.decoders⟩

theorem sound_distribute (hs : s.system.Sound) (value : Tracked) : (distribute code put value s).system.Sound := by
  induction value generalizing s with
  | one origin =>
      rw [distribute]
      exact hs
  | two origin left right ihleft ihright =>
      rw [distribute]
      dsimp only
      split
      · exact sound_countAssignment hs _
      · split
        · split
          · split
            · exact sound_countStore hs _ _ _
            · exact ihright (ihleft (sound_countStore hs _ _ _))
          · exact ihright (ihleft hs)
        · exact hs

theorem sound_store (hs : s.system.Sound) : (store code put value s).system.Sound := by
  unfold store
  dsimp only
  split
  · exact hs
  · exact sound_distribute (s := { s with stored := s.stored.insert value.origin put }) hs value

theorem sound_multiply (hs : s.system.Sound) : (multiply code left right s).system.Sound := by
  unfold multiply
  split
  · next p hp =>
      split
      · exact hs
      · exact System.sound_observe hs p.field (isMultiplier_of_fieldProduct? hp)
  · exact hs

/-- What is noted on an event leaves a sound system sound. -/
theorem sound_afterEvent (hs : s.system.Sound) (event : Event Tracked) : (s.afterEvent code event).system.Sound := by
  cases event with
  | step index before =>
      rw [afterEvent]
      split
      · split
        · exact sound_multiply hs
        · exact hs
      · split
        · exact sound_store hs
        · exact hs
      · exact hs
  | edge source target => exact hs
  | join target frame => exact hs

theorem sound_afterEvents (hs : s.system.Sound) (trace : List (Event Tracked)) :
    (trace.foldl (afterEvent code) s).system.Sound := by
  induction trace generalizing s with
  | nil => exact hs
  | cons event rest ih => exact ih (sound_afterEvent hs event)

end Scan

theorem sound_observeMethod {system : System} (hs : system.Sound) (m : MethodDecl) :
    (observeMethod m system).1.Sound := by
  unfold observeMethod
  dsimp only
  split
  · exact Scan.sound_afterEvents hs _
  · exact Scan.sound_afterEvents hs _

/-- The scan of a program ends with a sound system. -/
theorem exists_observePool {ε : Type} (pool : ClassPool) :
    ∃ system, (observePool pool : Logged ε System).Yields system ∧ system.Sound := by
  have hempty : System.Sound {} :=
    ⟨List.nodup_nil, fun _ _ ⟨_, hmem, _⟩ => (List.not_mem_nil hmem).elim, nofun⟩
  refine Logged.Yields.exists_foldlM (fun placed _ system hs => ?_) hempty
  refine ⟨(observeMethod placed.2 system).1, ?_, sound_observeMethod hs placed.2⟩
  cases hstopped : (observeMethod placed.2 system).2 with
  | none =>
      simp only [hstopped]
      exact .pure _
  | some reason =>
      simp only [hstopped]
      exact (Logged.Yields.note _ _).bind (.pure _)

namespace System

variable {s u : System} {after : List System}

/-- Whatever the assignments are, every round leaves less to do. -/
theorem Run.length_le (h : s.Run after) : after.length ≤ s.pending.length + s.assignments.length := by
  induction after generalizing s with
  | nil => exact Nat.zero_le _
  | cons u later ih =>
      obtain ⟨⟨_, _, _, hround⟩, hlater⟩ := List.isChain_cons_cons.1 h
      have hless := hround.size_lt
      have := ih hlater
      simp only [size] at hless
      simp only [List.length_cons]
      omega

/-- No inversion fails when the system is simplified, nor when the next field is settled. -/
def Inverts (s : System) : Prop :=
  ∃ t, s.simplify = .ok t ∧ ∀ field candidates rest, t.next? = some ((field, candidates), rest) →
    ∃ decoder? notices, choose field candidates.reverse = .ok (decoder?, notices)

theorem Sound.inverts (hs : s.Sound) : s.Inverts := by
  obtain ⟨t, hsimplify, hsound⟩ := exists_simplify hs
  refine ⟨t, hsimplify, fun field candidates rest hnext => ?_⟩
  obtain ⟨decoder?, notices, hchoose, -⟩ := exists_choose field (hsound.next_multipliers hnext)
  exact ⟨decoder?, notices, hchoose⟩

end System

section Cancelling

open Cancel

variable {decoder : Number} {decoders : Decoders} {op : Opcode} {ref : MemberRef} {previous next : Option Opcode}
  {index : Nat} {reason : NotInvertible}

theorem odd_toWidth (wide : Bool) (h : Odd decoder.toInt) : Odd (toWidth wide decoder).toInt := by
  cases wide with
  | true => exact h
  | false =>
      refine ((toWidth false decoder).odd_congr ?_).2 h
      show decoder.toInt64.toInt32.toInt64.toInt ≡ decoder.toInt64.toInt [ZMOD 4294967296]
      rw [Int32.toInt_toInt64, Int64.toInt_toInt32]
      exact Int.bmod_emod

theorem exists_encoder (wide : Bool) (h : Odd decoder.toInt) : ∃ n, encoder wide decoder = .ok n := by
  obtain ⟨n, hn⟩ := Number.isInvertible_iff_inverse?.1 (Number.isInvertible_iff.2 (odd_toWidth wide h))
  exact ⟨n, mapError_eq_ok.2 (Number.inverse_eq_ok.2 hn)⟩

theorem access_inverts (h : Odd decoder.toInt) :
    access op ref decoder index previous next ≠ .error (.notInvertible reason) := by
  obtain ⟨long, hlong⟩ := exists_encoder true h
  obtain ⟨n, hn⟩ := exists_encoder (ref.descriptor == "J") h
  intro hfail
  simp only [access, hlong, hn] at hfail
  split at hfail
  · split at hfail <;> cases hfail
  · split at hfail
    · split at hfail
      · split at hfail
        · cases hfail
        · split at hfail <;> cases hfail
      · cases hfail
    · cases hfail

/-- Where all decoders are odd, no inversion fails when accesses are rewritten. -/
theorem cancel_inverts (h : ∀ field decoder, (field, decoder) ∈ decoders → Odd decoder.toInt) (m : MethodDecl) :
    cancel decoders m ≠ .error (.notInvertible reason) := by
  intro hfail
  cases hfound : (List.range m.code.toArray.size).filterMapM (insertions decoders m.code.toArray) with
  | ok found =>
      rw [cancel, hfound] at hfail
      cases hfail
  | error fault =>
      rw [cancel, hfound] at hfail
      obtain rfl := Except.error.inj hfail
      obtain ⟨index, -, hindex⟩ := filterMapM_eq_error hfound
      unfold insertions at hindex
      split at hindex
      · split at hindex
        · split at hindex
          · next decoder hdecoder => exact access_inverts (h _ _ (mem_of_lookup hdecoder)) hindex
          · cases hindex
        · cases hindex
      · cases hindex

end Cancelling

section Total

variable {pool : ClassPool} {system : System} {decoders : Decoders}

theorem yields_find (hscan : (observePool pool : Logged NotInvertible System).Yields system)
    (hsolve : system.solve.2 = .ok decoders) : (find pool).Yields decoders := by
  refine (Logged.Yields.note _ _).bind (hscan.bind ?_)
  rw [System.report]
  refine (Logged.Yields.forM fun notice _ => Logged.Yields.note _ _).bind ?_
  rw [hsolve]
  exact .pure decoders

/-- Finding the multipliers of a program ends with decoders.  The solver makes at most as many rounds as there are
fields with candidates and assignments, no inversion fails on the way, and the decoders are those that the last round
leaves.  All of them are odd and not their own inverses, so no inversion fails when accesses are rewritten. -/
theorem find_succeeds (pool : ClassPool) :
    ∃ (system : System) (decoders : Decoders),
      (observePool pool : Logged NotInvertible System).run.2 = .ok system ∧ (find pool).run.2 = .ok decoders ∧
      (∀ after, system.Run after → after.length ≤ system.pending.length + system.assignments.length ∧
        (after.getLastD system).Inverts) ∧
      (∃ after, system.Run after ∧ (after.getLastD system).Idle ∧ decoders = (after.getLastD system).decoders) ∧
      (∀ field decoder, (field, decoder) ∈ decoders →
        Odd decoder.toInt ∧ ∃ inverse, decoder.inverse = .ok inverse ∧ inverse ≠ decoder) ∧
      ∀ m reason, cancel decoders m ≠ .error (.notInvertible reason) := by
  obtain ⟨system, hscan, hsound⟩ := exists_observePool (ε := NotInvertible) pool
  obtain ⟨after, hrun, hidle, hsolve⟩ := System.exists_run hsound
  have hfind := yields_find hscan hsolve
  obtain ⟨_, hscanned⟩ := hscan.exists_run
  obtain ⟨_, hfound⟩ := hfind.exists_run
  have hdecoders : ∀ field decoder, (field, decoder) ∈ (after.getLastD system).decoders →
      Odd decoder.toInt ∧ ∃ inverse, decoder.inverse = .ok inverse ∧ inverse ≠ decoder := by
    intro field decoder hmem
    have hmultiplier := (hrun.rounds.sound hsound).decoders field decoder hmem
    obtain ⟨inverse, hinverse, hne⟩ := Number.isMultiplier_iff.1 hmultiplier
    exact ⟨Number.isInvertible_iff.1 (Number.isInvertible_iff_inverse?.2 ⟨inverse, hinverse⟩), inverse,
      Number.inverse_eq_ok.2 hinverse, hne⟩
  refine ⟨system, _, by rw [hscanned], by rw [hfound], fun other hother => ?_, ⟨after, hrun, hidle, rfl⟩,
    hdecoders, ?_⟩
  · exact ⟨hother.length_le, (hother.rounds.sound hsound).inverts⟩
  · intro m reason
    exact cancel_inverts (fun field decoder hmem => (hdecoders field decoder hmem).1) m

end Total

end Unscramble.Multiplier
