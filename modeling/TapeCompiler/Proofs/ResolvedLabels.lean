import TapeCompiler.Proofs.Arm.Labels
import TapeCompiler.Proofs.Jasmin.Labels
import TapeCompiler.Proofs.Smali.Labels

/-!
# Labels of what is compiled

The loops of a program that was read and optimized have ids of their own, whatever the
passes left of it. So the labels of its artifacts are unique, and every branch finds its
label.
-/

namespace TapeCompiler.Program

/-- The flat artifacts of a program that was read and optimized have the labels of its
loops and reads, each once. -/
theorem resolves_artifacts {source : String} {p : Program} (hp : ofSource source = .ok p)
    (passes : Nat) :
    Arm.dialect.Resolves (p.optimize passes) (Arm.artifact (p.optimize passes)) ∧
      Jasmin.dialect.Resolves (p.optimize passes) (Jasmin.artifact (p.optimize passes)) ∧
      Smali.dialect.Resolves (p.optimize passes) (Smali.artifact (p.optimize passes)) :=
  have hids := nodup_loopIds_optimize hp passes
  ⟨Arm.resolves_artifact hids, Jasmin.resolves_artifact hids, Smali.resolves_artifact hids⟩

/-- A loop at the front that a pass drops, a loop that becomes a clear, and two loops and a
read that are left. -/
theorem resolves_artifacts_nested :
    let source := "[-.]+[>[+],[.<]-]"
    let p : Program :=
      [.loop 0 [.command (.add (-1)), .command .print], .command (.add 1),
        .loop 1 [.command (.move 1), .command .clear, .command .read,
          .loop 3 [.command .print, .command (.move (-1))], .command (.add (-1))]]
    ofSource source = .ok p ∧
      Jasmin.dialect.defined (Jasmin.artifact (p.optimize 1)) =
        ["Lstart_1", "Leof_0", "Lstart_3", "Lend_3", "Lend_1"] := by
  intro source p
  have hp : ofSource source = .ok p := by decide +kernel
  have hresolves := (resolves_artifacts hp 1).2.1
  have hleft : p.optimize 1 = p.tail := by decide +kernel
  refine ⟨hp, hresolves.defined_eq.trans ?_⟩
  rw [hleft, LabelNames.labels]
  simp only [p, List.tail_cons, Template.write_command, Template.write_loop, Template.write_nil]
  decide

end TapeCompiler.Program
