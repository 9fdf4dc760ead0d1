import TapeCompiler.Proofs.LoopIds
import TapeCompiler.Proofs.Reading

/-!
# Reading programs one behind the other

A parser that is asked again goes on behind the token that stopped it: an end of text at
any depth, or a bracket that closes nothing. `Token.pieces` cuts tokens behind every such
token. Asking a parser again and again is the same as reading each piece alone, up to the
numbers of the loops, which go on counting from one piece to the next, also behind a fault
(`Parser.programs_eq_nthReading`). So no two loops of all the programs that are read
have one number.

The bridge is `Parser.readBlock_eq_firstPiece`: a reading sees nothing of what stands
behind its piece, and leaves nothing behind but the last line and the number of the next
loop.
-/

namespace TapeCompiler

namespace Token

/-- The token ends a reading inside of `depth` open loops. -/
def stops (depth : Nat) : Token → Bool
  | ⟨.endOfText, _⟩ => true
  | ⟨.symbol .closeLoop, _⟩ => depth == 0
  | _ => false

/-- How many loops are open behind a token that does not end the reading. -/
def depthAfter (depth : Nat) : Token → Nat
  | ⟨.symbol .openLoop, _⟩ => depth + 1
  | ⟨.symbol .closeLoop, _⟩ => depth - 1
  | _ => depth

/-- How many loops tokens open. -/
def opened (tokens : List Token) : Nat :=
  tokens.countP (·.kind = .symbol .openLoop)

/-- The pieces of tokens, the first of which starts inside of `depth` open loops. -/
def piecesAt : Nat → List Token → List (List Token)
  | _, [] => []
  | depth, t :: rest =>
      if t.stops depth then
        [t] :: piecesAt 0 rest
      else
        let pieces := piecesAt (t.depthAfter depth) rest
        (t :: pieces.headD []) :: pieces.tail

/-- Tokens, cut behind each token that ends a reading. -/
def pieces (tokens : List Token) : List (List Token) :=
  piecesAt 0 tokens

def firstPiece (depth : Nat) (tokens : List Token) : List Token :=
  (piecesAt depth tokens).headD []

theorem opened_append (tokens rest : List Token) :
    opened (tokens ++ rest) = opened tokens + opened rest :=
  List.countP_append

theorem opened_cons (t : Token) (rest : List Token) :
    opened (t :: rest) = opened [t] + opened rest :=
  opened_append [t] rest

theorem opened_of_stops {depth : Nat} {t : Token} (h : t.stops depth = true) :
    opened [t] = 0 := by
  obtain ⟨s | _, line⟩ := t
  · cases s with
    | closeLoop => rfl
    | _ => cases h
  · rfl

theorem piecesAt_of_stops {depth : Nat} {t : Token} (h : t.stops depth = true)
    (rest : List Token) : piecesAt depth (t :: rest) = [t] :: pieces rest := by
  rw [piecesAt, if_pos h, pieces]

theorem piecesAt_of_not_stops {depth : Nat} {t : Token} (h : t.stops depth = false)
    (rest : List Token) :
    piecesAt depth (t :: rest) =
      (t :: firstPiece (t.depthAfter depth) rest) ::
        (piecesAt (t.depthAfter depth) rest).tail := by
  rw [piecesAt, if_neg (by simp [h]), firstPiece]

theorem firstPiece_append (depth : Nat) (tokens : List Token) :
    firstPiece depth tokens ++ (piecesAt depth tokens).tail.flatten =
      (piecesAt depth tokens).flatten := by
  rw [firstPiece]
  cases piecesAt depth tokens <;> simp

/-- Cutting loses nothing. -/
theorem flatten_piecesAt (depth : Nat) (tokens : List Token) :
    (piecesAt depth tokens).flatten = tokens := by
  induction tokens generalizing depth with
  | nil => rfl
  | cons t rest ih =>
      cases h : t.stops depth with
      | true => rw [piecesAt_of_stops h, List.flatten_cons, pieces, ih, List.singleton_append]
      | false =>
          rw [piecesAt_of_not_stops h, List.flatten_cons, List.cons_append,
            firstPiece_append, ih]

@[simp] theorem flatten_pieces (tokens : List Token) : (pieces tokens).flatten = tokens :=
  flatten_piecesAt 0 tokens

/-- What stands behind the first piece is cut as if it stood alone. -/
theorem pieces_flatten_tail_piecesAt (depth : Nat) (tokens : List Token) :
    pieces (piecesAt depth tokens).tail.flatten = (piecesAt depth tokens).tail := by
  induction tokens generalizing depth with
  | nil => rfl
  | cons t rest ih =>
      cases h : t.stops depth with
      | true => rw [piecesAt_of_stops h, List.tail_cons, flatten_pieces]
      | false => rw [piecesAt_of_not_stops h, List.tail_cons, ih]

theorem pieces_flatten_tail (tokens : List Token) :
    pieces (pieces tokens).tail.flatten = (pieces tokens).tail :=
  pieces_flatten_tail_piecesAt 0 tokens

theorem opened_firstPiece_add (tokens : List Token) :
    opened (firstPiece 0 tokens) + opened (pieces tokens).tail.flatten = opened tokens := by
  rw [← opened_append, pieces, firstPiece_append, flatten_piecesAt]

end Token

/-- The same node with the numbers of its loops moved up. -/
def Node.shiftIds (n : Nat) : Node → Node
  | command c => command c
  | loop id body => loop (id + n) (body.map (shiftIds n))

/-- The same program with the numbers of its loops moved up. -/
def Program.shiftIds (n : Nat) (p : Program) : Program :=
  p.map (Node.shiftIds n)

namespace Node

theorem shiftIds_command (n : Nat) (c : Command) : (command c).shiftIds n = command c := by
  rw [shiftIds]

theorem shiftIds_loop (n id : Nat) (body : Program) :
    (loop id body).shiftIds n = loop (id + n) (body.shiftIds n) := by
  rw [shiftIds]
  rfl

end Node

namespace Program

@[simp] theorem shiftIds_nil (n : Nat) : shiftIds n [] = [] := rfl

@[simp] theorem shiftIds_cons (n : Nat) (node : Node) (rest : Program) :
    shiftIds n (node :: rest) = node.shiftIds n :: shiftIds n rest := rfl

theorem shiftIds_reverse (n : Nat) (p : Program) :
    shiftIds n p.reverse = (shiftIds n p).reverse :=
  List.map_reverse

theorem loopIds_shiftIds (n : Nat) (p : Program) :
    (shiftIds n p).loopIds = p.loopIds.map (· + n) := by
  induction p using Program.induction with
  | nil => rfl
  | command c rest ih => simp [Node.shiftIds_command, ih]
  | loop id body rest ihBody ih => simp [Node.shiftIds_loop, ihBody, ih]

end Program

/-- Whether a loop becomes a clear does not hang on the numbers in it. -/
theorem Node.ofBody_shiftIds (n id : Nat) (body : Program) :
    Node.ofBody (id + n) (body.shiftIds n) = (Node.ofBody id body).shiftIds n := by
  rcases body with _ | ⟨c | ⟨id', inner⟩, _ | ⟨node, rest⟩⟩
  · simp [ofBody, shiftIds_loop]
  · cases c <;> simp [ofBody, shiftIds_command, shiftIds_loop]
  · simp [ofBody, shiftIds_command, shiftIds_loop]
  · simp [ofBody, shiftIds_loop]
  · simp [ofBody, shiftIds_loop]

namespace Parser

/-- An open loop with the numbers in it moved up. -/
def OpenLoop.shiftIds (n : Nat) (loop : OpenLoop) : OpenLoop :=
  ⟨loop.id + n, Program.shiftIds n loop.before⟩

variable (block : Program) (loops : List OpenLoop) (line nextId : Nat)

theorem finish_shiftIds (n : Nat) :
    finish line (block.shiftIds n) (loops.map (OpenLoop.shiftIds n)) =
      (finish line block loops).map (Program.shiftIds n) := by
  cases loops with
  | nil => simp [finish, Except.map, Program.shiftIds_reverse]
  | cons loop loops => rfl

/-- A parser that starts to count at a higher number reads the same programs, with their
numbers moved up. -/
theorem readBlock_shiftIds (n : Nat) (tokens : List Token) :
    (readBlock (block.shiftIds n) (loops.map (OpenLoop.shiftIds n)) line (nextId + n)
      tokens).1 = (readBlock block loops line nextId tokens).1.map (Program.shiftIds n) := by
  induction tokens generalizing block loops line nextId with
  | nil => exact finish_shiftIds block loops line n
  | cons t rest ih =>
      obtain ⟨s | _, line'⟩ := t
      case endOfText => exact finish_shiftIds block loops line' n
      cases hs : s.command? with
      | some c =>
          rw [readBlock_command hs, readBlock_command hs, ← ih, Program.shiftIds_cons,
            Node.shiftIds_command]
      | none =>
          rcases (Symbol.command?_eq_none_iff s).mp hs with rfl | rfl
          · have hread := ih [] (⟨nextId, block⟩ :: loops) line' (nextId + 1)
            rw [Nat.add_right_comm] at hread
            exact hread
          · cases loops with
            | nil => rfl
            | cons loop loops =>
                have hread := ih (Node.ofBody loop.id block.reverse :: loop.before) loops line'
                  nextId
                rw [Program.shiftIds_cons, ← Node.ofBody_shiftIds,
                  Program.shiftIds_reverse] at hread
                exact hread

/-- Outside of all loops, the line that a reading starts on is never seen. -/
theorem readBlock_line (line' : Nat) (tokens : List Token) :
    (readBlock block [] line nextId tokens).1 = (readBlock block [] line' nextId tokens).1 := by
  cases tokens with
  | nil => rfl
  | cons t rest =>
      obtain ⟨s | _, _⟩ := t
      · cases s <;> rfl
      · rfl

/-- A token that ends the reading hides what stands behind it. -/
theorem readBlock_of_stops {t : Token} (h : t.stops loops.length = true) :
    ∃ answer, ∀ rest,
      readBlock block loops line nextId (t :: rest) = (answer, ⟨rest, t.line, nextId⟩) := by
  obtain ⟨s | _, line'⟩ := t
  case endOfText => exact ⟨finish line' block loops, fun _ => rfl⟩
  cases s with
  | closeLoop =>
      cases loops with
      | nil => exact ⟨.error ⟨.unexpectedClose, line'⟩, fun _ => rfl⟩
      | cons loop loops => cases h
  | _ => cases h

/-- Behind any other token the reading goes on, and how does not hang on what stands
there. -/
theorem readBlock_of_not_stops {t : Token} (h : t.stops loops.length = false) :
    ∃ block' loops', loops'.length = t.depthAfter loops.length ∧ ∀ rest,
      readBlock block loops line nextId (t :: rest) =
        readBlock block' loops' t.line (nextId + Token.opened [t]) rest := by
  obtain ⟨s | _, line'⟩ := t
  case endOfText => cases h
  cases s with
  | openLoop => exact ⟨[], ⟨nextId, block⟩ :: loops, rfl, fun _ => rfl⟩
  | closeLoop =>
      cases loops with
      | nil => cases h
      | cons loop loops =>
          exact ⟨Node.ofBody loop.id block.reverse :: loop.before, loops, rfl, fun _ => rfl⟩
  | _ => exact ⟨_, loops, rfl, fun _ => rfl⟩

/-- A reading is a reading of the first piece alone. It goes on behind that piece, and
counts on from the loops that were opened in it. -/
theorem readBlock_eq_firstPiece (tokens : List Token) :
    readBlock block loops line nextId tokens =
      ((readBlock block loops line nextId (Token.firstPiece loops.length tokens)).1,
        ⟨(Token.piecesAt loops.length tokens).tail.flatten,
          ((Token.firstPiece loops.length tokens).map Token.line).getLastD line,
          nextId + Token.opened (Token.firstPiece loops.length tokens)⟩) := by
  -- Both the reading and the cutting go along the tokens, and the loops that are open in
  -- the one are counted by the depth in the other.
  induction tokens generalizing block loops line nextId with
  | nil => rfl
  | cons t rest ih =>
      cases h : t.stops loops.length with
      | true =>
          obtain ⟨answer, hread⟩ := readBlock_of_stops block loops line nextId h
          simp [Token.firstPiece, Token.piecesAt_of_stops h, hread, Token.opened_of_stops h]
      | false =>
          obtain ⟨block', loops', hdepth, hread⟩ :=
            readBlock_of_not_stops block loops line nextId h
          have hpiece : Token.firstPiece loops.length (t :: rest) =
              t :: Token.firstPiece loops'.length rest := by
            rw [Token.firstPiece, Token.piecesAt_of_not_stops h, hdepth, List.headD_cons]
          rw [hpiece, hread, hread, ih, Token.piecesAt_of_not_stops h,
            Token.opened_cons t (Token.firstPiece _ _), ← hdepth, List.tail_cons,
            List.map_cons, List.getLastD_cons, Nat.add_assoc]

theorem program_fst (parser : Parser) :
    parser.program.1 = (Program.ofTokens (Token.firstPiece 0 parser.tokens)).map
      (Program.shiftIds parser.nextId) := by
  rw [program, readBlock_eq_firstPiece, readBlock_line [] _ _ 1, List.length_nil,
    Program.ofTokens, program, ← readBlock_shiftIds, Nat.zero_add]
  rfl

theorem program_snd (parser : Parser) :
    parser.program.2.tokens = (Token.pieces parser.tokens).tail.flatten ∧
      parser.program.2.nextId =
        parser.nextId + Token.opened (Token.firstPiece 0 parser.tokens) := by
  rw [program, readBlock_eq_firstPiece]
  exact ⟨rfl, rfl⟩

/-- What the reading with number `i` answers, where the loops before the pieces are those
below `first`: its piece read alone, with the numbers moved up behind those of the pieces
before it. Behind the last piece that is the empty program. -/
def nthReading (first : Nat) (pieces : List (List Token)) (i : Nat) :
    Except ParseError Program :=
  match pieces[i]? with
  | some piece =>
      (Program.ofTokens piece).map
        (Program.shiftIds (first + Token.opened (pieces.take i).flatten))
  | none => .ok []

theorem nthReading_zero (first : Nat) (pieces : List (List Token)) :
    nthReading first pieces 0 =
      (Program.ofTokens (pieces.headD [])).map (Program.shiftIds first) := by
  cases pieces with
  | nil => rfl
  | cons piece more => rfl

theorem nthReading_succ (first : Nat) (pieces : List (List Token)) (i : Nat) :
    nthReading first pieces (i + 1) =
      nthReading (first + Token.opened (pieces.headD [])) pieces.tail i := by
  cases pieces with
  | nil => rfl
  | cons piece more =>
      simp only [nthReading, List.getElem?_cons_succ, List.take_succ_cons, List.flatten_cons,
        Token.opened_append, Nat.add_assoc, List.headD_cons, List.tail_cons]

/-- Readings one behind the other take one piece each. -/
theorem programs_eq_nthReading (parser : Parser) (count : Nat) :
    parser.programs count =
      (List.range count).map (nthReading parser.nextId (Token.pieces parser.tokens)) := by
  induction count generalizing parser with
  | zero => rfl
  | succ count ih =>
      obtain ⟨htokens, hnext⟩ := parser.program_snd
      rw [programs, List.range_succ_eq_map, List.map_cons, List.map_map, nthReading_zero,
        program_fst, ih, htokens, hnext, Token.pieces_flatten_tail]
      congr 1
      refine List.map_congr_left fun i _ => ?_
      rw [Function.comp_apply, nthReading_succ]
      rfl

/-- The ids of the loops of all the programs among the answers. -/
def answeredIds (answers : List (Except ParseError Program)) : List Nat :=
  (answers.filterMap Except.toOption).flatMap Program.loopIds

theorem answeredIds_ok (p : Program) (answers : List (Except ParseError Program)) :
    answeredIds (.ok p :: answers) = p.loopIds ++ answeredIds answers := rfl

theorem answeredIds_error (e : ParseError) (answers : List (Except ParseError Program)) :
    answeredIds (.error e :: answers) = answeredIds answers := rfl

/-- The loops of a program have numbers of their own, from those that are free before the
reading and below those that are free behind it. -/
theorem loopIds_of_program {parser : Parser} {p : Program} (hp : parser.program.1 = .ok p) :
    p.loopIds.Nodup ∧
      ∀ id ∈ p.loopIds, parser.nextId ≤ id ∧ id < parser.program.2.nextId := by
  have hfresh := fresh_of_readBlock (fresh_nil parser.nextId) hp
  refine ⟨hfresh.nodup, fun id hid => ⟨?_, hfresh.lt_of_mem hid⟩⟩
  rw [program_fst] at hp
  cases hpiece : Program.ofTokens (Token.firstPiece 0 parser.tokens) with
  | error e => rw [hpiece] at hp; cases hp
  | ok q =>
      rw [hpiece] at hp
      cases hp
      rw [Program.loopIds_shiftIds, List.mem_map] at hid
      obtain ⟨i, -, rfl⟩ := hid
      exact Nat.le_add_left _ _

theorem answeredIds_programs (parser : Parser) (count : Nat) :
    (answeredIds (parser.programs count)).Nodup ∧
      ∀ id ∈ answeredIds (parser.programs count),
        parser.nextId ≤ id ∧ id < parser.nextId + Token.opened parser.tokens := by
  induction count generalizing parser with
  | zero => exact ⟨List.nodup_nil, by simp [answeredIds, programs]⟩
  | succ count ih =>
      obtain ⟨hnodup, hrange⟩ := ih parser.program.2
      obtain ⟨htokens, hnext⟩ := parser.program_snd
      have hopened := Token.opened_firstPiece_add parser.tokens
      -- The later readings only use numbers behind those of the first piece.
      rw [htokens, hnext] at hrange
      rw [programs]
      cases hp : parser.program.1 with
      | error e =>
          rw [answeredIds_error]
          refine ⟨hnodup, fun id hid => ?_⟩
          have hbounds := hrange id hid
          omega
      | ok p =>
          obtain ⟨hown, hids⟩ := loopIds_of_program hp
          rw [hnext] at hids
          rw [answeredIds_ok]
          refine ⟨hown.append hnodup fun id hid hlater => ?_, fun id hid => ?_⟩
          · have hfirst := hids id hid
            have hbehind := hrange id hlater
            omega
          · rcases List.mem_append.mp hid with hid | hid
            · have hfirst := hids id hid
              omega
            · have hbehind := hrange id hid
              omega

/-- A parser that is asked again and again reads one piece after the other: what it
answers is what each piece alone is read as, except that the loops are counted on from one
piece to the next, and behind the last piece it answers the empty program. So all the
loops that are read have numbers of their own, each below the number of all the loops that
the tokens open. -/
theorem programs_reads_pieces (tokens : List Token) (count : Nat) :
    (Token.pieces tokens).flatten = tokens ∧
      programs { tokens } count =
        (List.range count).map (nthReading 0 (Token.pieces tokens)) ∧
      (answeredIds (programs { tokens } count)).Nodup ∧
      ∀ id ∈ answeredIds (programs { tokens } count), id < Token.opened tokens := by
  obtain ⟨hnodup, hrange⟩ := answeredIds_programs { tokens } count
  refine ⟨Token.flatten_pieces tokens, programs_eq_nthReading _ count, hnodup, ?_⟩
  intro id hid
  simpa using (hrange id hid).2

example : Parser.programs { tokens := scan "[]][.]" } 3 =
    [.error ⟨.unexpectedClose, 1⟩, .ok [.loop 1 [.command .print]], .ok []] := by
  rfl

end Parser

end TapeCompiler
