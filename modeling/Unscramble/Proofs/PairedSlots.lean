/-
Wide values in local slots.  A long or a double takes two slots, and the second one holds nothing of its own.  Setting a
slot repairs the pairs that it touches, and where frames are joined a wide value is left only if both have it, and then
both have its second slot too; so no frame of an analysis ever has half a pair.
-/
import Unscramble.Proofs.Fixpoint
import Unscramble.Proofs.RelatedFrames

namespace Unscramble

theorem Kind.size_eq_two_iff {kind : Kind} : kind.size = 2 ↔ kind = .long ∨ kind = .double := by
  cases kind <;> simp [size]

namespace Frame

/-- Behind every wide value comes its second slot, which is not initialized. -/
def Paired (locals : List Kind) : Prop :=
  ∀ slot kind, locals[slot]? = some kind → kind.size = 2 → locals[slot + 1]? = some .uninitialized

section Slots

variable {locals left right : List Kind} {kind : Kind} {slot : Nat}

theorem paired_nil : Paired [] :=
  nofun

theorem paired_narrow (h : kind.size ≠ 2) : Paired [kind] := by
  intro slot other hother hwide
  cases slot with
  | zero => exact absurd (Option.some.inj hother ▸ hwide) h
  | succ slot => cases hother

theorem paired_wide (kind : Kind) : Paired [kind, .uninitialized] := by
  intro slot other hother hwide
  rcases slot with _ | _ | slot
  · rfl
  · cases hother
    cases hwide
  · cases hother

/-- No pair reaches beyond the end of the slots, so that others can come behind them. -/
theorem Paired.append (hleft : Paired left) (hright : Paired right) : Paired (left ++ right) := by
  intro slot kind hkind hwide
  by_cases hslot : slot < left.length
  · rw [List.getElem?_append_left hslot] at hkind
    have hnext := hleft slot kind hkind hwide
    obtain ⟨hlt, -⟩ := List.getElem?_eq_some_iff.1 hnext
    rw [List.getElem?_append_left hlt]
    exact hnext
  · have hle : left.length ≤ slot := Nat.le_of_not_lt hslot
    rw [List.getElem?_append_right hle] at hkind
    rw [List.getElem?_append_right (Nat.le_succ_of_le hle), Nat.succ_sub hle]
    exact hright _ kind hkind hwide

theorem Paired.flatMap {α : Type} {items : List α} {slots : α → List Kind} (h : ∀ a ∈ items, Paired (slots a)) :
    Paired (items.flatMap slots) := by
  induction items with
  | nil => exact paired_nil
  | cons a rest ih =>
      rw [List.flatMap_cons]
      exact (h a List.mem_cons_self).append (ih fun b hb => h b (List.mem_cons_of_mem a hb))

theorem paired_replicate (count : Nat) : Paired (List.replicate count .uninitialized) := by
  intro slot kind hkind hwide
  obtain rfl := List.eq_of_mem_replicate (List.mem_of_getElem? hkind)
  cases hwide

/-- Where two lists of slots are joined, a wide value stays only where both have it. -/
theorem Paired.zipWith_merge (hleft : Paired left) (hright : Paired right) :
    Paired (List.zipWith Domain.kinds.merge left right) := by
  intro slot kind hkind hwide
  rw [List.getElem?_zipWith_eq_some] at hkind ⊢
  obtain ⟨a, b, ha, hb, hmerge⟩ := hkind
  by_cases hsame : a = b
  · subst hsame
    have hkept : a = kind := (if_pos rfl).symm.trans hmerge
    subst hkept
    exact ⟨_, _, hleft slot a ha hwide, hright slot a hb hwide, rfl⟩
  · have hlost : Kind.uninitialized = kind := (if_neg hsame).symm.trans hmerge
    subst hlost
    cases hwide

/-- All wide values have their second slots, apart from one in front of the given slot. -/
def PairedBefore (place : Nat) (locals : List Kind) : Prop :=
  ∀ slot kind, locals[slot]? = some kind → kind.size = 2 → slot + 1 ≠ place → locals[slot + 1]? = some .uninitialized

/-- Writing a value can only hurt the pair whose second slot it takes. -/
theorem Paired.written {place : Nat} (h : Paired locals) (hroom : kind.size = 2 → place + 1 < locals.length) :
    PairedBefore place (written Domain.kinds place kind locals) := by
  intro slot other hother hwide hplace
  by_cases hsize : kind.size = 2
  · have hwritten : Frame.written Domain.kinds place kind locals =
        (locals.set place kind).set (place + 1) .uninitialized := if_pos (beq_iff_eq.2 hsize)
    rw [hwritten] at hother ⊢
    rcases getElem?_set_cases hother with ⟨-, rfl⟩ | ⟨hsecond, hother⟩
    · cases hwide
    · rcases getElem?_set_cases hother with ⟨rfl, -⟩ | ⟨hfirst, hother⟩
      · exact List.getElem?_set_self (by simpa using hroom hsize)
      · rw [List.getElem?_set_ne (by omega), List.getElem?_set_ne (Ne.symm hplace)]
        exact h slot other hother hwide
  · have hwritten : Frame.written Domain.kinds place kind locals = locals.set place kind :=
      if_neg (hsize ∘ beq_iff_eq.1)
    rw [hwritten] at hother ⊢
    rcases getElem?_set_cases hother with ⟨-, rfl⟩ | ⟨-, hother⟩
    · exact absurd hwide hsize
    · rw [List.getElem?_set_ne (Ne.symm hplace)]
      exact h slot other hother hwide

/-- In front of a slot that was written there is no wide value, or it is lost. -/
theorem spoiled_kinds_cases (place : Nat) (locals : List Kind) :
    (spoiled Domain.kinds place locals = locals ∧
        ∀ before kind, before + 1 = place → locals[before]? = some kind → kind.size ≠ 2) ∨
      ∃ before, before + 1 = place ∧ spoiled Domain.kinds place locals = locals.set before .uninitialized := by
  cases place with
  | zero => exact .inl ⟨rfl, nofun⟩
  | succ before =>
      simp only [spoiled]
      cases hleft : locals[before]? with
      | none =>
          refine .inl ⟨rfl, fun slot kind hslot hkind => ?_⟩
          rw [Nat.succ.inj hslot, hleft] at hkind
          cases hkind
      | some left =>
          by_cases hwide : left.size = 2
          · exact .inr ⟨before, rfl, if_pos (beq_iff_eq.2 hwide)⟩
          · refine .inl ⟨if_neg (hwide ∘ beq_iff_eq.1), fun slot kind hslot hkind => ?_⟩
            rw [Nat.succ.inj hslot, hleft] at hkind
            exact Option.some.inj hkind ▸ hwide

/-- After the value in front of the slot is repaired, all wide values have their second slots. -/
theorem PairedBefore.spoiled {place : Nat} (h : PairedBefore place locals) :
    Paired (spoiled Domain.kinds place locals) := by
  intro slot kind hkind hwide
  rcases spoiled_kinds_cases place locals with ⟨heq, hnarrow⟩ | ⟨before, rfl, heq⟩
  · rw [heq] at hkind ⊢
    exact h slot kind hkind hwide fun hslot => hnarrow slot kind hslot hkind hwide
  · rw [heq] at hkind ⊢
    rcases getElem?_set_cases hkind with ⟨-, rfl⟩ | ⟨hne, hkind⟩
    · cases hwide
    · have hnext := h slot kind hkind hwide (by omega)
      by_cases hslot : slot + 1 = before
      · obtain ⟨hlt, -⟩ := List.getElem?_eq_some_iff.1 hnext
        rw [hslot] at hlt ⊢
        exact List.getElem?_set_self hlt
      · rw [List.getElem?_set_ne (Ne.symm hslot)]
        exact hnext

/-- A slot is set only where there is room for the value. -/
theorem setLocal_room {index : UInt16} {stored : List Kind} (h : setLocal Domain.kinds index kind locals = .ok stored)
    (hwide : kind.size = 2) : index.toNat + 1 < locals.length := by
  rw [setLocal_eq] at h
  split at h
  · cases h
  · next hroom =>
      have hsize : Domain.kinds.size kind = 2 := hwide
      simp only [hsize, Bool.or_eq_true, decide_eq_true_eq, Bool.and_eq_true, beq_self_eq_true, true_and] at hroom
      omega

/-- Setting a slot repairs all pairs that it touches. -/
theorem Paired.setLocal {index : UInt16} {stored : List Kind} (h : Paired locals)
    (hset : setLocal Domain.kinds index kind locals = .ok stored) : Paired stored := by
  rw [setLocal_eq_ok hset]
  exact (h.written (setLocal_room hset)).spoiled

end Slots

section Steps

variable {f g merged : Frame Kind} {index : Nat} {instr : Instr} {effect : Effect}

/-- Only stores and increments touch local slots, and they set one. -/
theorem Paired.execute (h : Paired f.locals) (hexecute : f.execute Domain.kinds index instr effect = .ok g) :
    Paired g.locals := by
  cases effect using Effect.byShape with
  | operands effect count hcount =>
      obtain ⟨-, rfl⟩ := execute_operands_eq_ok hcount hexecute
      exact h
  | moving effect hmoving =>
      obtain ⟨stack, -, rfl⟩ := execute_moving_eq_ok hmoving hexecute
      exact h
  | load slot =>
      obtain ⟨value, -, rfl⟩ := execute_load_eq_ok.1 hexecute
      exact h
  | store slot =>
      obtain ⟨value, rest, stored, -, hstored, rfl⟩ := execute_store_eq_ok.1 hexecute
      exact h.setLocal hstored
  | iinc slot =>
      obtain ⟨-, stored, hstored, rfl⟩ := execute_iinc_eq_ok.1 hexecute
      exact h.setLocal hstored
  | exit effect hexit =>
      obtain ⟨count, hcount⟩ := exists_execute_exit hexit index instr
      rw [hcount] at hexecute
      split at hexecute
      · cases hexecute
      · cases hexecute
        exact h

theorem Paired.merge {changed : Bool} (hf : Paired f.locals) (hg : Paired g.locals)
    (hlocals : f.locals.length = g.locals.length) (h : f.merge Domain.kinds g = .ok (merged, changed)) :
    Paired merged.locals := by
  obtain ⟨-, rfl, -⟩ := merge_eq Domain.kinds_lawful.same_iff hlocals h
  exact hf.zipWith_merge hg

end Steps

/-- A frame with the given number of local slots, in which every wide value has its second slot. -/
structure Whole (slots : Nat) (f : Frame Kind) : Prop where
  fits : f.Fits (fun _ => True) slots
  paired : Paired f.locals

end Frame

/-- Frames stay whole along every flow. -/
theorem Flow.follows_whole (flow : Flow) (slots : Nat) :
    flow.Follows Domain.kinds (fun _ => Frame.Whole slots) (Frame.Above Domain.kinds) where
  refl hf := Frame.Above.refl Domain.kinds_lawful hf.fits.1
  trans hf hg hh := Frame.Above.trans Domain.kinds_lawful hf.fits.1 hg.fits.1 hh.fits.1
  next hf hcode hexecute hnext htarget :=
    ⟨(flow.follows_of_lawful Domain.kinds_lawful slots).next hf.fits hcode hexecute hnext htarget,
      hf.paired.execute hexecute⟩
  handler hf hrange hcovers :=
    ⟨(flow.follows_of_lawful Domain.kinds_lawful slots).handler hf.fits hrange hcovers, hf.paired⟩
  merge hf hg hmerge := by
    have hlocals := hf.fits.2.trans hg.fits.2.symm
    obtain ⟨hgood, hslots, hboth⟩ := Frame.merge_ok Domain.kinds_lawful hf.fits.1 hg.fits.1 hlocals hmerge
    exact ⟨⟨⟨hgood, hslots.trans hf.fits.2⟩, hf.paired.merge hg.paired hlocals hmerge⟩, hboth⟩

namespace Analysis

/-- On entry every wide parameter has its second slot. -/
theorem entryLocals_paired {isStatic : Bool} {params : List TypeDesc} {needed : Nat} {locals : List Kind}
    (h : entryLocals Domain.kinds isStatic params needed = .ok locals) : Frame.Paired locals := by
  obtain ⟨kinds, -, h⟩ := bind_eq_ok.1 h
  rw [← Except.ok.inj h]
  have hreceiver : Frame.Paired (if isStatic then [] else [Domain.kinds.fresh .reference]) := by
    cases isStatic with
    | true => exact Frame.paired_nil
    | false => exact Frame.paired_narrow (by decide)
  have hparams : Frame.Paired (kinds.flatMap fun kind =>
      if kind.size == 2 then [Domain.kinds.fresh kind, Domain.kinds.fresh .uninitialized]
      else [Domain.kinds.fresh kind]) := by
    apply Frame.Paired.flatMap
    intro kind _
    by_cases hwide : kind.size = 2
    · rw [if_pos (beq_iff_eq.2 hwide)]
      exact Frame.paired_wide kind
    · rw [if_neg (hwide ∘ beq_iff_eq.1)]
      exact Frame.paired_narrow hwide
  exact (hreceiver.append hparams).append (Frame.paired_replicate _)

theorem entryFrame_whole {m : MethodDecl} {entry : Frame Kind} (h : entryFrame Domain.kinds m = .ok entry) :
    entry.Whole entry.locals.length := by
  refine ⟨⟨entryFrame_good (fun _ => trivial) h, rfl⟩, ?_⟩
  obtain ⟨params, locals, -, hlocals, rfl⟩ := entryFrame_eq_ok h
  exact entryLocals_paired hlocals

/-- The frames that an analysis of kinds gives have one number of local slots, and behind every slot of a long or a
double comes a slot that is not initialized. -/
theorem analyze_pairs_slots {m : MethodDecl} {frames : Array (Option (Frame Kind))}
    (h : (analyze Domain.kinds m).result = .ok frames) :
    ∃ slots, ∀ (index : Nat) (frame : Frame Kind), frames[index]? = some (some frame) →
      frame.locals.length = slots ∧ ∀ slot kind, frame.locals[slot]? = some kind → kind = .long ∨ kind = .double →
        frame.locals[slot + 1]? = some .uninitialized := by
  by_cases hcode : m.code = []
  · obtain rfl := frames_of_noCode hcode h
    exact ⟨0, fun index frame hframe => by simp at hframe⟩
  · obtain ⟨flow, entry, q, -, hentry, rfl, -, hsteady⟩ := exists_settled hcode h
    obtain ⟨hsteady, -⟩ := hsteady _ _ (flow.follows_whole entry.locals.length) (entryFrame_whole hentry)
    refine ⟨entry.locals.length, fun index frame hframe => ?_⟩
    obtain ⟨hwhole, -⟩ := hsteady.sound.frames index frame (Option.join_eq_some_iff.2 hframe)
    exact ⟨hwhole.fits.2, fun slot kind hkind hwide => hwhole.paired slot kind hkind (Kind.size_eq_two_iff.2 hwide)⟩

/-- A loop that writes over halves of wide values: a long over the second slot of its argument, a double over that of
this long, an increment over that of the double, and a long over the incremented slot. -/
def overlapping : MethodDecl where
  name := "overlapping"
  descriptor := "(J)V"
  access := Access.staticBit
  maxLocals := 5
  code := [.simple Opcode.lconst1, .var Opcode.lstore 1, .label ⟨0⟩, .simple Opcode.dconst1, .var Opcode.dstore 2,
    .iinc 3 1, .simple Opcode.lconst0, .var Opcode.lstore 3, .jump Opcode.goto ⟨0⟩]

theorem overlapping_pairs_slots : ∃ frames, (analyze Domain.kinds overlapping).result = .ok frames ∧
    frames[5]? = some (some ⟨[.uninitialized, .uninitialized, .double, .uninitialized, .uninitialized], []⟩) ∧
    ∃ slots, ∀ (index : Nat) (frame : Frame Kind), frames[index]? = some (some frame) →
      frame.locals.length = slots ∧ ∀ slot kind, frame.locals[slot]? = some kind → kind = .long ∨ kind = .double →
        frame.locals[slot + 1]? = some .uninitialized := by
  have hdouble : (analyze Domain.kinds overlapping).result.toOption.bind (·[5]?) =
      some (some ⟨[.uninitialized, .uninitialized, .double, .uninitialized, .uninitialized], []⟩) := by decide +kernel
  cases h : (analyze Domain.kinds overlapping).result with
  | error reason =>
      rw [h] at hdouble
      cases hdouble
  | ok frames =>
      rw [h] at hdouble
      exact ⟨frames, rfl, hdouble, analyze_pairs_slots h⟩

end Analysis

end Unscramble
