import TapeCompiler.Proofs.Spelling

/-!
# What the parser reads

The symbols of a list of tokens are those before the first end of text. Where they close
as many loops as are open, `Parser.readBlock` reads a plain program off them and puts the
clears in (`readBlock_of_closes`). The invariant is `Parser.spelled`: what the open loops
and the block at hand spell together is what was read so far.
-/

namespace TapeCompiler

/-- The symbols of tokens, up to the first end of text. -/
def Token.symbols : List Token → List Symbol
  | [] => []
  | ⟨.endOfText, _⟩ :: _ => []
  | ⟨.symbol s, _⟩ :: rest => s :: Token.symbols rest

def sourceSymbols (source : String) : List Symbol :=
  source.toList.filterMap Symbol.ofChar?

theorem Cursor.symbols_collect (line : Nat) (text : List Char) :
    Token.symbols (collect line #[] text).toList = text.filterMap Symbol.ofChar? := by
  induction text generalizing line with
  | nil => rfl
  | cons c text ih =>
      cases h : Symbol.ofChar? c with
      | none =>
          rw [collect_cons, h, List.filterMap_cons_none h]
          exact ih _
      | some s =>
          rw [collect_cons, h, List.filterMap_cons_some h]
          simp only
          rw [toList_collect]
          simpa [Token.symbols] using ih line

theorem symbols_scan (source : String) :
    Token.symbols (scan source) = sourceSymbols source :=
  Cursor.symbols_collect 1 source.toList

namespace Parser

/-- What was read so far: what stands before each loop that is open, its bracket, and the
block at hand. -/
def spelled : List OpenLoop → Program → List Symbol
  | [], block => Program.symbols block.reverse
  | loop :: loops, block =>
      spelled loops loop.before ++ .openLoop :: Program.symbols block.reverse

theorem spelled_cons (loops : List OpenLoop) (n : Node) (block : Program) :
    spelled loops (n :: block) = spelled loops block ++ n.symbols := by
  cases loops <;> simp [spelled, Program.symbols]

theorem readBlock_command {s : Symbol} {c : Command} (h : s.command? = some c)
    (block : List Node) (loops : List OpenLoop) (line nextId line' : Nat)
    (rest : List Token) :
    readBlock block loops line nextId (⟨.symbol s, line'⟩ :: rest) =
      readBlock (.command c :: block) loops line' nextId rest := by
  cases s <;> cases h <;> rfl

def OpenLoop.withClears (loop : OpenLoop) : OpenLoop :=
  ⟨loop.id, Program.withClears loop.before⟩

theorem withClears_close (id : Nat) (block before : Program) :
    Program.withClears (.loop id block.reverse :: before) =
      Node.ofBody id (Program.withClears block).reverse :: Program.withClears before := by
  simp [Program.withClears, Node.withClears_loop, List.map_reverse]

theorem finish_of_closes {loops : List OpenLoop} {block : Program}
    (hblock : Program.IsPlain block) (hcloses : Symbol.Closes loops.length []) (line : Nat) :
    ∃ p : Program, p.IsPlain ∧ p.symbols = spelled loops block ++ [] ∧
      finish line (Program.withClears block) (loops.map OpenLoop.withClears) =
        .ok p.withClears := by
  obtain rfl : loops = [] := by simpa using hcloses
  refine ⟨block.reverse, fun n hn => hblock n (List.mem_reverse.mp hn), by simp [spelled], ?_⟩
  simp [finish, Program.withClears, List.map_reverse]

/-- Where the open loops are closed, a plain program is read, with the clears put in. -/
theorem readBlock_of_closes (tokens : List Token) (loops : List OpenLoop) (block : Program)
    (line nextId : Nat) (hblock : Program.IsPlain block)
    (hloops : ∀ loop ∈ loops, Program.IsPlain loop.before)
    (hcloses : Symbol.Closes loops.length (Token.symbols tokens)) :
    ∃ p : Program, p.IsPlain ∧ p.symbols = spelled loops block ++ Token.symbols tokens ∧
      (readBlock (Program.withClears block) (loops.map OpenLoop.withClears) line nextId
        tokens).1 = .ok p.withClears := by
  induction tokens generalizing loops block line nextId with
  | nil => exact finish_of_closes hblock hcloses line
  | cons token rest ih =>
      obtain ⟨kind, line'⟩ := token
      cases kind with
      | endOfText => exact finish_of_closes hblock hcloses line'
      | symbol s =>
          rw [Token.symbols] at hcloses ⊢
          cases hs : s.command? with
          | some c =>
              have hplain : Program.IsPlain (.command c :: block) :=
                List.forall_mem_cons.mpr ⟨(Node.isPlain_command c).mpr ⟨s, hs⟩, hblock⟩
              have hrest : Symbol.Closes loops.length (Token.symbols rest) := by
                refine (Symbol.closes_other _ ?_ ?_).mp hcloses <;> rintro rfl <;> cases hs
              obtain ⟨p, hp, hspelled, hread⟩ :=
                ih loops (.command c :: block) line' nextId hplain hloops hrest
              refine ⟨p, hp, ?_, ?_⟩
              · rw [hspelled, spelled_cons, Node.symbols_command,
                  Command.symbols_of_command? hs, List.append_assoc, List.singleton_append]
              · rw [readBlock_command hs]
                rwa [Program.withClears_cons, Node.withClears_command] at hread
          | none =>
              rcases (Symbol.command?_eq_none_iff s).mp hs with rfl | rfl
              · have hnil : Program.IsPlain [] := by simp [Program.IsPlain]
                obtain ⟨p, hp, hspelled, hread⟩ :=
                  ih (⟨nextId, block⟩ :: loops) [] line' (nextId + 1) hnil
                    (List.forall_mem_cons.mpr ⟨hblock, hloops⟩)
                    ((Symbol.closes_openLoop _ _).mp hcloses)
                refine ⟨p, hp, ?_, hread⟩
                simp [hspelled, spelled]
              · obtain ⟨outer, hdepth, hrest⟩ := (Symbol.closes_closeLoop _ _).mp hcloses
                cases loops with
                | nil => cases hdepth
                | cons loop loops =>
                    obtain ⟨id, before⟩ := loop
                    obtain rfl := Nat.succ.inj hdepth
                    obtain ⟨hbefore, hloops⟩ := List.forall_mem_cons.mp hloops
                    have hloop : (Node.loop id block.reverse).IsPlain :=
                      (Node.isPlain_loop id _).mpr fun n hn => hblock n (List.mem_reverse.mp hn)
                    obtain ⟨p, hp, hspelled, hread⟩ :=
                      ih loops (.loop id block.reverse :: before) line' nextId
                        (List.forall_mem_cons.mpr ⟨hloop, hbefore⟩) hloops hrest
                    refine ⟨p, hp, ?_, ?_⟩
                    · simp [hspelled, spelled_cons, Node.symbols_loop, spelled]
                    · rwa [withClears_close] at hread

end Parser

/-- A word whose brackets match is read as a plain program that it spells, with the
clears put in. -/
theorem Program.ofTokens_of_bracketsMatch {tokens : List Token}
    (h : Symbol.BracketsMatch (Token.symbols tokens)) :
    ∃ p : Program, p.IsPlain ∧ p.symbols = Token.symbols tokens ∧
      ofTokens tokens = .ok p.withClears := by
  have hnil : IsPlain [] := by simp [IsPlain]
  exact Parser.readBlock_of_closes tokens [] [] 1 0 hnil (by simp) h

end TapeCompiler
