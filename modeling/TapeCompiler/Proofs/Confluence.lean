import TapeCompiler.Proofs.Reduction
import TapeCompiler.Proofs.Shrinking

/-!
# The order of rewrites does not matter

A program has one normal form: reduce it, drop what cannot run at the start, and reduce
again, because two moves may have come together. Folding, dropping and whole passes keep
the normal form (`normalForm_rewriteAll`), and a program that a pass leaves alone is its
own. So passes that are taken until one changes nothing end in the normal form, whatever
rewrites came before (`settle_rewriteAll`).
-/

namespace TapeCompiler

/-- One rewrite of a program: one of the two parts of a pass on the program itself, or a
whole pass. -/
inductive Rewrite where
  | fold
  | dropUnreachable
  | pass
deriving DecidableEq, Repr, Inhabited

def Rewrite.apply : Rewrite → Program → Program
  | fold => Program.fold
  | dropUnreachable => Program.dropUnreachable
  | pass => Program.pass

/-- A node that is kept at the start, and lets what follows it be dropped. -/
def Node.StaysOnBlank (n : Node) : Prop :=
  n.touchesTape = false ∧ n.isIdleOnBlank = false

theorem Node.StaysOnBlank.of_merge? {c d e : Command} (h : c.merge? d = some e)
    (hc : (Node.command c).StaysOnBlank) :
    (Node.command d).StaysOnBlank ∧ (Node.command e).StaysOnBlank := by
  obtain ⟨htouches, hidle⟩ := hc
  cases c <;> cases d <;> cases h <;>
    simp_all [Node.StaysOnBlank, Node.touchesTape, Node.isIdleOnBlank]

namespace Program

def rewriteAll (p : Program) (steps : List Rewrite) : Program :=
  steps.foldl (fun q step => step.apply q) p

/-- Drops what cannot run at the start, and reduces what is left. -/
def reduceReachable (p : Program) : Program :=
  p.dropUnreachable.reduce

/-- What passes end in. -/
def normalForm (p : Program) : Program :=
  p.reduce.reduceReachable

theorem dropUnreachable_cons_of_stays {n : Node} (h : n.StaysOnBlank) (rest : Program) :
    dropUnreachable (n :: rest) = n :: dropUnreachable rest := by
  simp [dropUnreachable_cons, h.1, h.2]

theorem dropUnreachable_cons_of_idle {n : Node} (htouches : n.touchesTape = false)
    (hidle : n.isIdleOnBlank = true) (rest : Program) :
    dropUnreachable (n :: rest) = dropUnreachable rest := by
  simp [dropUnreachable_cons, htouches, hidle]

theorem reduceReachable_keepOnto {c : Command} (h : (Node.command c).StaysOnBlank)
    (rest : Program) :
    reduceReachable ((Node.command c).keepOnto rest) =
      (Node.command c).reduceOnto (reduceReachable rest) := by
  cases heffective : (Node.command c).isEffective with
  | true =>
      rw [Node.keepOnto_of_isEffective heffective, reduceReachable,
        dropUnreachable_cons_of_stays h]
      rfl
  | false =>
      have hfolded : Folded (reduceReachable rest) := folded_reduce _
      rw [Node.keepOnto_of_not_isEffective heffective,
        hfolded.reduceOnto_of_not_isEffective heffective]

/-- A command that stays can be put in front before or after the dropping. -/
theorem reduceReachable_reduceOnto {c : Command} (h : (Node.command c).StaysOnBlank)
    (rest : Program) :
    reduceReachable ((Node.command c).reduceOnto rest) =
      (Node.command c).reduceOnto (reduceReachable rest) := by
  rcases Node.apart_or_merge? c rest with hc | ⟨d, others, e, rfl, hmerge⟩
  · rw [Node.reduceOnto_of_apart hc, reduceReachable_keepOnto h]
  · obtain ⟨hd, he⟩ := h.of_merge? hmerge
    have hfolded : Folded (reduceReachable others) := folded_reduce _
    have hothers : reduceReachable (.command d :: others) =
        (Node.command d).reduceOnto (reduceReachable others) := by
      rw [reduceReachable, dropUnreachable_cons_of_stays hd]
      rfl
    rw [Node.reduceOnto_of_merge? hmerge, reduceReachable_keepOnto he, hothers,
      hfolded.reduceOnto_reduceOnto hmerge]

/-- What is dropped on a blank tape is dropped just as well after it was reduced. -/
theorem dropUnreachable_reduceOnto {n : Node} (hidle : n.isIdleOnBlank = true)
    (rest : Program) :
    dropUnreachable (n.reduceBody.reduceOnto rest) = dropUnreachable rest := by
  match n, hidle with
  | .loop id body, _ =>
      rw [Node.reduceBody, Node.reduceOnto_of_apart (Node.apart_loop _ _ _), Node.keepOnto]
      split
      next => exact dropUnreachable_cons_of_idle rfl rfl rest
      next => rfl
  | .command .clear, _ =>
      rw [Node.reduceBody]
      rcases Node.apart_or_merge? .clear rest with hc | ⟨d, others, e, rfl, hmerge⟩
      · rw [Node.reduceOnto_of_apart hc]
        exact dropUnreachable_cons_of_idle rfl rfl rest
      · cases d <;> cases hmerge
        rfl

theorem normalForm_fold (p : Program) : p.fold.normalForm = p.normalForm := by
  rw [normalForm, reduce_fold, normalForm]

theorem normalForm_dropUnreachable (p : Program) :
    p.dropUnreachable.normalForm = p.normalForm := by
  induction p with
  | nil => rfl
  | cons n rest ih =>
      rw [dropUnreachable_cons]
      split
      next => rfl
      next htouches =>
        rw [Bool.not_eq_true] at htouches
        split
        next hidle =>
          rw [ih, normalForm, normalForm, reduceReachable, reduceReachable, reduce_cons,
            dropUnreachable_reduceOnto hidle]
        next hidle =>
          -- A move or a print stays in front, on either side of the dropping.
          rw [Bool.not_eq_true] at hidle
          cases n with
          | loop id body => cases hidle
          | command c =>
              have hstays : (Node.command c).StaysOnBlank := ⟨htouches, hidle⟩
              calc normalForm (.command c :: dropUnreachable rest)
                  = (Node.command c).reduceOnto (normalForm (dropUnreachable rest)) :=
                    reduceReachable_reduceOnto hstays _
                _ = (Node.command c).reduceOnto (normalForm rest) := by rw [ih]
                _ = normalForm (.command c :: rest) :=
                    (reduceReachable_reduceOnto hstays _).symm

theorem normalForm_pass (p : Program) : p.pass.normalForm = p.normalForm := by
  rw [pass, normalForm_dropUnreachable, normalForm, reduce_foldAll, normalForm]

theorem normalForm_apply (step : Rewrite) (p : Program) :
    (step.apply p).normalForm = p.normalForm := by
  cases step with
  | fold => exact normalForm_fold p
  | dropUnreachable => exact normalForm_dropUnreachable p
  | pass => exact normalForm_pass p

theorem normalForm_rewriteAll (p : Program) (steps : List Rewrite) :
    (p.rewriteAll steps).normalForm = p.normalForm := by
  induction steps generalizing p with
  | nil => rfl
  | cons step steps ih => exact (ih (step.apply p)).trans (normalForm_apply step p)

theorem apply_shrinks (step : Rewrite) (p : Program) : Shrinks (step.apply p) p := by
  cases step with
  | fold => exact fold_shrinks p
  | dropUnreachable => exact dropUnreachable_shrinks p
  | pass => exact pass_shrinks p

theorem rewriteAll_shrinks (p : Program) (steps : List Rewrite) :
    Shrinks (p.rewriteAll steps) p := by
  induction steps generalizing p with
  | nil => exact .refl p
  | cons step steps ih => exact (ih (step.apply p)).trans (apply_shrinks step p)

theorem reduce_eq_self_of_mergeRuns {p : Program} (hmerge : p.mergeRuns = p)
    (heffective : ∀ n ∈ p, n.isEffective = true) (hbodies : ∀ n ∈ p, n.reduceBody = n) :
    p.reduce = p := by
  induction p with
  | nil => rfl
  | cons n rest ih =>
      obtain ⟨hn, heffective⟩ := List.forall_mem_cons.mp heffective
      obtain ⟨hbody, hbodies⟩ := List.forall_mem_cons.mp hbodies
      have hrest := mergeRuns_tail_eq_self hmerge
      have hapart : n.Apart rest := by rwa [mergeRuns_cons, hrest] at hmerge
      rw [reduce_cons, hbody, ih hrest heffective hbodies, Node.reduceOnto_of_apart hapart,
        Node.keepOnto_of_isEffective hn]

/-- A program that folding leaves alone is reduced. -/
theorem reduce_eq_self {p : Program} (h : p.foldAll = p) : p.reduce = p := by
  induction p using Program.induction_bodies with
  | block p ih =>
      have hfold := fold_eq_self h
      refine reduce_eq_self_of_mergeRuns (mergeRuns_eq_self hfold)
        (fun n => isEffective_of_mem hfold) fun n hn => ?_
      cases n with
      | command c => rfl
      | loop id body =>
          have hbody : foldAll body = body := by
            simpa [Node.foldBody] using foldBody_eq_self h hn
          exact congrArg (Node.loop id) (ih id body hn hbody)

theorem normalForm_eq_self {p : Program} (h : p.pass = p) : p.normalForm = p := by
  have hreduce := reduce_eq_self (foldAll_eq_self h)
  rw [normalForm, hreduce, reduceReachable, dropUnreachable_eq_self h, hreduce]

/-- As many passes as there are nodes are enough: they end in the normal form, and
another pass would change nothing. -/
theorem settleFrom_of_nodeCount_le {p : Program} {limit : Nat} (h : p.nodeCount ≤ limit)
    (changed : Nat) :
    (settleFrom changed p limit).1 = p.normalForm ∧ p.normalForm.pass = p.normalForm := by
  induction limit generalizing p changed with
  | zero =>
      obtain rfl := eq_nil_of_nodeCount (Nat.le_zero.mp h)
      exact ⟨rfl, by simp [normalForm, reduceReachable, pass, foldAll_eq, fold]⟩
  | succ limit ih =>
      rw [settleFrom]
      split
      next heq =>
        have hpass : p.pass = p := by simpa using heq
        rw [normalForm_eq_self hpass]
        exact ⟨rfl, hpass⟩
      next hne =>
        -- A pass that changes the program takes a node away, so the limit is not used up.
        have hlt := (pass_shrinks p).nodeCount_lt (by simpa using hne)
        have hpass := ih (p := p.pass) (by omega) (changed + 1)
        rwa [normalForm_pass] at hpass

-- The adds cancel, so the loop cannot run, and without it the moves cancel.
example : normalForm [.command (.add 1), .command (.add (-1)), .command (.move 2),
    .loop 0 [.loop 0 [], .command .print], .command (.move (-2)), .command .read] =
    [.command .read] := by
  decide

/-- Passes that are taken until one changes nothing end in one program, whatever rewrites
came before. -/
theorem settle_rewriteAll (p : Program) (steps : List Rewrite) {limit limit' : Nat}
    (h : p.nodeCount ≤ limit) (h' : p.nodeCount ≤ limit') :
    ((p.rewriteAll steps).settle limit').1 = (p.settle limit).1 ∧
      (p.settle limit).1.pass = (p.settle limit).1 := by
  obtain ⟨hp, hpass⟩ := settleFrom_of_nodeCount_le h 0
  have hle := (rewriteAll_shrinks p steps).nodeCount_le
  obtain ⟨hq, -⟩ := settleFrom_of_nodeCount_le (Nat.le_trans hle h') 0
  rw [normalForm_rewriteAll] at hq
  rw [settle, settle, hq, hp]
  exact ⟨rfl, hpass⟩

/-- Folding first or dropping first, on a program whose rewrites make room for one
another. -/
theorem settle_rewriteAll_cancelled_moves :
    let p : Program :=
      [.command (.add 1), .command (.add (-1)), .command (.move 2),
        .loop 0 [.loop 0 [], .command .print], .command (.move (-2)), .command .read]
    let q := p.rewriteAll [.dropUnreachable, .fold, .pass, .fold]
    p.nodeCount ≤ 8 ∧ p.nodeCount ≤ 9 ∧ (q.settle 9).1 = (p.settle 8).1 ∧
      (p.settle 8).1.pass = (p.settle 8).1 := by
  intro p q
  have hcount : p.nodeCount ≤ 8 := by decide
  have hcount' : p.nodeCount ≤ 9 := by decide
  exact ⟨hcount, hcount', settle_rewriteAll p _ hcount hcount'⟩

end Program

end TapeCompiler
