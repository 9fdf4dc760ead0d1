import TapeCompiler.Proofs.Clearing
import TapeCompiler.Proofs.TokenExecution

/-!
# What a source text means

Parsing keeps the meaning of a text whose brackets match. The program that is read ends
on a machine exactly as the tokens do when they are run one by one, and so does the plain
program that has the loops in the place of the clears.
-/

namespace TapeCompiler

namespace Program

/-- A text whose brackets match is read, and the program ends on every machine exactly
as the tokens do. The text spells a program without the clears, and this one ends so
as well. -/
theorem ofSource_ends_iff_tokensEnd {source : String}
    (h : Symbol.BracketsMatch (sourceSymbols source)) :
    ∃ p : Program, p.IsPlain ∧ p.symbols = sourceSymbols source ∧
      ofSource source = .ok p.withClears ∧
      ∀ m outcome, (p.withClears.Ends m outcome ↔ TokensEnd (scan source) m outcome) ∧
        (p.Ends m outcome ↔ TokensEnd (scan source) m outcome) := by
  rw [← symbols_scan] at h
  obtain ⟨p, hplain, hspelled, hread⟩ := ofTokens_of_bracketsMatch h
  refine ⟨p, hplain, hspelled.trans (symbols_scan source), hread, fun m outcome => ?_⟩
  have htokens := ends_iff_tokensEnd hplain hspelled m outcome
  exact ⟨((equivalent_withClears hplain).ends_iff m outcome).symm.trans htokens, htokens⟩

/-- A clear inside a loop, on a cell that wraps around. -/
theorem ofSource_ends_iff_tokensEnd_nested :
    let source := "+[>[+]<-]>."
    let m : Machine := { tape := ⟨#[0, 250], 0⟩ }
    let outcome : Outcome Unit :=
      (.ok (), ⟨⟨#[0, 0], 1⟩, [], { written := #[0], flushes := 1 }⟩)
    Symbol.BracketsMatch (sourceSymbols source) ∧ TokensEnd (scan source) m outcome ∧
      ∃ p : Program, ofSource source = .ok p ∧ p.Ends m outcome := by
  intro source m outcome
  have hmatch : Symbol.BracketsMatch (sourceSymbols source) := by
    have hsymbols : sourceSymbols source = [.plus, .openLoop, .right, .openLoop, .plus,
      .closeLoop, .left, .minus, .closeLoop, .right, .dot] := by decide +kernel
    rw [hsymbols, ← Symbol.closes_zero_iff]
    simp [Symbol.closes_other, Symbol.closes_openLoop, Symbol.closes_closeLoop]
  have htokens : TokensEnd (scan source) m outcome := ⟨32, by decide +kernel⟩
  obtain ⟨p, -, -, hread, hends⟩ := ofSource_ends_iff_tokensEnd hmatch
  exact ⟨hmatch, htokens, p.withClears, hread, (hends m outcome).1.mpr htokens⟩

end Program

end TapeCompiler
