import TapeCompiler.Proofs.Actions

/-!
# Optimized programs run as before

Merging neighbours loses no outcome at all. Dropping the nodes without an effect loses
the check that the pointer is on the tape, and the loops without a body that never end,
so from there on only outcomes are kept that are no such fault. Dropping what cannot run
at the start needs a blank tape besides. `ends_optimize` puts the passes together for
whole runs.
-/

namespace TapeCompiler

namespace Program

variable {allowed : RuntimeFault → Prop}

theorem evaluates_merge {c d merged : Command} (h : c.merge? d = some merged)
    {rest : Program} {m : Machine} {final : Outcome Unit} :
    Evaluates (.command c :: .command d :: rest) m final ↔
      Evaluates (.command merged :: rest) m final := by
  have hact := Command.act_of_merge? h m
  rw [evaluates_command, evaluates_command]
  rcases hc : m.act c.action with ⟨fault | ⟨⟩, m'⟩
  · rw [hc, continues_error] at hact
    rw [← hact, continues_error, continues_error]
  · rw [hc, continues_ok] at hact
    rw [← hact, continues_ok, evaluates_command]

theorem refines_mergeOnto (n : Node) (merged : List Node) :
    Refines allowed (n :: merged) (n.mergeOnto merged) := by
  intro m final _ h
  unfold Node.mergeOnto
  split
  next c d rest =>
    split
    next hmerge => exact (evaluates_merge hmerge).mp h
    next => exact h
  next => exact h

theorem refines_mergeRuns (block : Program) : Refines allowed block block.mergeRuns := by
  induction block with
  | nil => exact .refl []
  | cons n rest ih =>
      rw [mergeRuns_cons]
      exact (Refines.cons n ih).trans (refines_mergeOnto n (mergeRuns rest))

/-- A node without an effect can be dropped: if it comes to an answer it has changed
nothing, and if it fails the pointer is not on the tape. -/
theorem refines_of_not_isEffective {n : Node} (h : n.isEffective = false) (rest : Program) :
    Refines (·.isIo) (n :: rest) rest := by
  intro m final hcounts hn
  match n, h with
  | .command c, h =>
      rw [evaluates_command] at hn
      rcases hact : m.act c.action with ⟨fault | ⟨⟩, m'⟩
      · rw [hact, continues_error] at hn
        have hio := hcounts fault (by rw [← hn])
        cases c <;> simp [Node.isEffective] at h
        case move => simp [Command.action, Machine.act] at hact
        case add => simp [Machine.not_isIo_of_change hact] at hio
      · rw [hact, continues_ok] at hn
        rwa [← Command.act_of_not_isEffective h hact]
  | .loop id body, h =>
      obtain rfl : body = [] := by simpa [Node.isEffective] using h
      generalize hp : Node.loop id [] :: rest = p at hn
      induction hn with
      | nil => cases hp
      | command => cases hp
      | commandFault => cases hp
      | loopFault hzero =>
          have hio := hcounts _ rfl
          simp [Machine.not_isIo_of_isZero hzero] at hio
      | loopDone hzero hrest =>
          cases hp
          exact hrest
      | loopBodyFault hzero hbody =>
          cases hp
          cases hbody
      | loopAgain hzero hbody _ _ ih =>
          cases hp
          cases hbody
          exact ih hcounts rfl

theorem refines_filter_isEffective (block : Program) :
    Refines (·.isIo) block (block.filter Node.isEffective) := by
  induction block with
  | nil => exact .refl []
  | cons n rest ih =>
      rw [List.filter_cons]
      split
      next => exact .cons n ih
      next h => exact (refines_of_not_isEffective (by simpa using h) rest).trans ih

theorem refines_fold (block : Program) : Refines (·.isIo) block block.fold :=
  (refines_mergeRuns block).trans (refines_filter_isEffective block.mergeRuns)

theorem refines_map_foldBody {block : Program}
    (h : ∀ id body, .loop id body ∈ block → Refines allowed body body.foldAll) :
    Refines allowed block (block.map Node.foldBody) := by
  induction block with
  | nil => exact .refl []
  | cons n rest ih =>
      have hrest := ih fun id body hmem => h id body (List.mem_cons_of_mem n hmem)
      cases n with
      | command c => exact .command c hrest
      | loop id body => exact .loop id id (h id body List.mem_cons_self) hrest

/-- Folding a program and the bodies of its loops keeps every outcome that is no fault of
the pointer. -/
theorem refines_foldAll (p : Program) : Refines (·.isIo) p p.foldAll := by
  induction p using Program.induction_bodies with
  | block p ih =>
      rw [foldAll_eq]
      refine (refines_fold p).trans (refines_map_foldBody ?_)
      exact fun id body hmem => ih id body (mem_of_loop_mem_fold hmem)

theorem evaluates_tail_of_isIdleOnBlank {n : Node} (hidle : n.isIdleOnBlank = true)
    {rest : Program} {m : Machine} {final : Outcome Unit} (hblank : m.IsBlank)
    (hcounts : Counts (·.isIo) final) (h : Evaluates (n :: rest) m final) :
    Evaluates rest m final := by
  match n, hidle with
  | .command .clear, _ =>
      cases h with
      | command hact hrest => rwa [← hblank.eq_of_clear hact]
      | commandFault hact =>
          have hio := hcounts _ rfl
          simp [Machine.not_isIo_of_change hact] at hio
  | .loop id body, _ =>
      cases h with
      | loopFault hzero =>
          have hio := hcounts _ rfl
          simp [Machine.not_isIo_of_isZero hzero] at hio
      | loopDone hzero hrest => exact hrest
      | loopBodyFault hzero hbody => exact absurd hzero hblank.isZero_ne
      | loopAgain hzero hbody hagain => exact absurd hzero hblank.isZero_ne

/-- On a blank tape the loops and clears before the first `add` or `read` do nothing. -/
theorem evaluates_dropUnreachable {p : Program} {m : Machine} {final : Outcome Unit}
    (hblank : m.IsBlank) (hcounts : Counts (·.isIo) final) (h : Evaluates p m final) :
    Evaluates p.dropUnreachable m final := by
  induction p generalizing m with
  | nil => exact h
  | cons n rest ih =>
      rw [dropUnreachable_cons]
      split
      next => exact h
      next htouches =>
        rw [Bool.not_eq_true] at htouches
        split
        next hidle => exact ih hblank (evaluates_tail_of_isIdleOnBlank hidle hblank hcounts h)
        next hidle =>
          cases h with
          | command hact hrest => exact .command hact (ih (hblank.act htouches hact) hrest)
          | commandFault hact => exact .commandFault hact
          | _ => exact absurd rfl hidle

/-- Every pass is about the start of the same run, where the tape is blank. -/
theorem evaluates_optimize {p : Program} {m : Machine} {final : Outcome Unit}
    (hblank : m.IsBlank) (hcounts : Counts (·.isIo) final) (h : Evaluates p m final)
    (passes : Nat) : Evaluates (p.optimize passes) m final := by
  induction passes with
  | zero => exact h
  | succ passes ih =>
      rw [optimize_succ, pass]
      exact evaluates_dropUnreachable hblank hcounts (refines_foldAll _ m final hcounts ih)

/-- A run on a fresh machine that ends well, or with a fault of a stream, ends in the same
way after any number of passes: with the same result and the same machine, that is, the
same tape, input left and sink. -/
theorem ends_optimize (p : Program) (passes length : Nat) (input : List ReadEvent)
    (sink : Sink) (final : Outcome Unit)
    (hends : p.Ends (Machine.start length input sink) final)
    (hresult : final.1 = .ok () ∨ ∃ fault, final.1 = .error (.io fault)) :
    (p.optimize passes).Ends (Machine.start length input sink) final := by
  have hcounts : Counts (·.isIo) final := by
    intro fault hfault
    rcases hresult with hok | ⟨ioFault, hio⟩
    · simp [hok] at hfault
    · obtain rfl : RuntimeFault.io ioFault = fault := by simpa [hio] using hfault
      rfl
  refine ends_of_evaluates (fun outcome hcounts h => ?_) hcounts hends
  exact evaluates_optimize (Machine.isBlank_start length input sink) hcounts h passes

/-- The second byte does not fit into the sink any more, with and without the passes. -/
theorem ends_optimize_full_sink :
    let p : Program :=
      [.loop 7 [.command .print], .command (.add 1), .command (.move 0),
        .command (.add 1), .loop 7 [.command .print, .command (.add (-1))]]
    let m := Machine.start 1 [.byte 5] { capacity := some 1 }
    let final : Outcome Unit :=
      (.error (.io .nothingWritten),
        ⟨⟨#[1], 0⟩, [.byte 5], { written := #[2], capacity := some 1 }⟩)
    p.Ends m final ∧ (p.optimize 2).Ends m final := by
  intro p m final
  have hends : p.Ends m final := ⟨9, by decide +kernel⟩
  exact ⟨hends, ends_optimize p 2 1 [.byte 5] { capacity := some 1 } final hends
    (.inr ⟨.nothingWritten, rfl⟩)⟩

end Program

end TapeCompiler
