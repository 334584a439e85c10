/-
The frames of symbolic expressions beside the frames of kinds.  Where the kinds on the stacks are known, the expressions
have their sizes, and what comes to an instruction says no less than what stays there.  So although joining expressions
is not joining in a lattice, an analysis that settles has frames that stand for all that came to them.
-/
import Unscramble.Proofs.Fixpoint
import Unscramble.Proofs.Meanings
import Unscramble.Proofs.RelatedFrames

namespace Unscramble

namespace Expr

variable {e e' : Expr} {kind : Kind}

theorem Joined.size {joined : Expr} {size : Nat} (hjoined : Joined e e' joined) (h : e.origin.size = size)
    (h' : e'.origin.size = size) : joined.origin.size = size := by
  cases hjoined with
  | forget =>
      show min e.origin.size e'.origin.size = size
      rw [h, h', Nat.min_self]
  | _ => exact h

theorem Sized.merge (h : e.Sized kind) (h' : e'.Sized kind) : (e.merge e').Sized kind := by
  rcases h with hunknown | h
  · exact .inl hunknown
  · rcases h' with hunknown | h'
    · exact .inl hunknown
    · exact .inr ((joined_merge e e').size h h')

end Expr

namespace Analysis

section Entry

variable {V : Type} {d : Domain V} {R : Kind → V → Prop} {m : MethodDecl} {kinds : Frame Kind} {values : Frame V}

theorem entryLocals_related (hd : d.Kinded R) {isStatic : Bool} {params : List TypeDesc} {needed : Nat}
    {locals : List Kind} {locals' : List V} (hkinds : entryLocals Domain.kinds isStatic params needed = .ok locals)
    (hvalues : entryLocals d isStatic params needed = .ok locals') : List.Forall₂ R locals locals' := by
  rw [entryLocals_fresh, hkinds] at hvalues
  obtain rfl := Except.ok.inj hvalues
  exact List.forall₂_map_right_iff.2 (List.forall₂_same.2 fun kind _ => hd.fresh kind)

/-- In every domain the frame on entry has values of the same kinds. -/
theorem entryFrame_related (hd : d.Kinded R) (hkinds : entryFrame Domain.kinds m = .ok kinds)
    (hvalues : entryFrame d m = .ok values) : kinds.Related R values := by
  obtain ⟨params, locals, hparams, hlocals, rfl⟩ := entryFrame_eq_ok hkinds
  obtain ⟨params', locals', hparams', hlocals', rfl⟩ := entryFrame_eq_ok hvalues
  obtain rfl := Except.ok.inj (hparams.symm.trans hparams')
  exact ⟨entryLocals_related hd hlocals hlocals', .nil⟩

theorem entryFrame_stack (h : entryFrame d m = .ok values) : values.stack = [] := by
  obtain ⟨_, _, -, -, rfl⟩ := entryFrame_eq_ok h
  rfl

end Entry

section Follows

variable {Good : Nat → Frame Kind → Prop} {flow : Flow} {entry : Frame Kind} {q : Progress Kind}

/-- The frame has the sizes of the kinds at an instruction. -/
def SizedAt (q : Progress Kind) (index : Nat) (f : Frame Expr) : Prop :=
  ∃ kinds, q.frameAt index = some kinds ∧ kinds.Related Expr.Sized f

/-- The stack of one frame says no more than that of another one. -/
def CoversStack (code : List Instr) (f g : Frame Expr) : Prop :=
  List.Forall₂ (Expr.Covers code) f.stack g.stack

/-- Frames of expressions can be followed where the frames of kinds have been. -/
theorem follows_exprs (code : List Instr) (hsteady : Steady Domain.kinds Good (Frame.Above Domain.kinds) flow entry q)
    (hpending : q.pending = []) (hknown : ∀ index frame, q.frameAt index = some frame → .uninitialized ∉ frame.stack) :
    flow.Follows Domain.exprs (SizedAt q) (CoversStack code) where
  refl _ := List.forall₂_same.2 fun e _ => Expr.Covers.refl e
  trans _ _ _ hfirst hsecond := forall₂_comp (fun _ _ _ h h' v hv => h v (h' v hv)) hfirst hsecond
  next := by
    rintro index instr effect f g next target ⟨kinds, hkinds, hrelated⟩ hcode hexecute hnext htarget
    obtain ⟨instr', effect', after, next', hcode', hafter, hnext', htargets, -⟩ :=
      hsteady.followed index kinds hkinds (by simp [hpending])
    obtain ⟨rfl, rfl⟩ := Prod.mk.inj (Option.some.inj (hcode.symm.trans hcode'))
    obtain rfl := Except.ok.inj (hnext.symm.trans hnext')
    obtain ⟨g', hg', hrelated'⟩ := Frame.execute_related Domain.exprs_kinded hrelated
      (Frame.sizes_of_known Domain.exprs_kinded hrelated.2 (hknown index kinds hkinds)) hafter
    obtain rfl := Except.ok.inj (hexecute.symm.trans hg')
    obtain ⟨present, hpresent, habove⟩ := (htargets target htarget).2
    exact ⟨present, hpresent, Frame.related_of_above Domain.exprs_kinded habove hrelated'⟩
  handler := by
    rintro index f range ⟨kinds, hkinds, hrelated⟩ hrange hcovers
    obtain ⟨_, _, _, _, _, _, _, _, hhandlers⟩ := hsteady.followed index kinds hkinds (by simp [hpending])
    obtain ⟨present, hpresent, habove⟩ := hhandlers range hrange hcovers
    exact ⟨present, hpresent, Frame.related_of_above Domain.exprs_kinded habove
      ⟨hrelated.1, .cons (Domain.exprs_kinded.fresh .reference) .nil⟩⟩
  merge := by
    rintro index f g merged changed ⟨kinds, hkinds, hf⟩ ⟨kinds', hkinds', hg⟩ hmerge
    obtain rfl := Option.some.inj (hkinds.symm.trans hkinds')
    obtain ⟨hheight, rfl, hunchanged⟩ := Frame.merge_eq (d := Domain.exprs) (fun a b => beq_iff_eq)
      (hf.1.length_eq.symm.trans hg.1.length_eq) hmerge
    have hsized : ∀ kind a b, Expr.Sized kind a → Expr.Sized kind b → Expr.Sized kind (a.merge b) :=
      fun _ _ _ => Expr.Sized.merge
    have hcovers := zipWith_forall₂ (f := Expr.merge) (R := Expr.Covers code) hheight
      fun a _ b _ => (Expr.joined_merge a b).covers
    exact ⟨⟨kinds, hkinds, forall₂_zipWith hsized hf.1 hg.1, forall₂_zipWith hsized hf.2 hg.2⟩,
      hcovers.1, hcovers.2, hunchanged⟩

end Follows

end Analysis

end Unscramble
