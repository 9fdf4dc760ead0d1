import TapeCompiler.Program.Printer
import TapeCompiler.Proofs.Clearing
import TapeCompiler.Proofs.OptimizerSoundness
import TapeCompiler.Proofs.TokenExecution

/-!
# What a printed program means

The source of a program can be read again, and the program that is read runs as the one
that was printed. Between the two stands `Program.units`, in which an amount is taken in
single steps and a clear is a loop: it is plain, it is spelled as the program is
(`symbols_units`), and it does what the program does (`equivalent_units`). An `add` by zero
is the exception: it looks at its cell, and nothing is printed for it.
-/

namespace TapeCompiler

/-- The step by one in the direction of an amount. -/
def unitOf (amount : Int) : Int :=
  if amount < 0 then -1 else 1

theorem natAbs_mul_unitOf (amount : Int) : amount.natAbs * unitOf amount = amount := by
  unfold unitOf
  split <;> omega

/-- What a command is spelled as, in commands of one symbol each and loops. -/
def Command.units : Command → Program
  | move amount => List.replicate amount.natAbs (.command (.move (unitOf amount)))
  | add amount => List.replicate amount.natAbs (.command (.add (unitOf amount)))
  | clear => [.loop 0 [.command (.add 1)]]
  | print => [.command .print]
  | read => [.command .read]

def Node.units : Node → Program
  | command c => c.units
  | loop id body => [.loop id (body.flatMap units)]

/-- No `add` of a node is by zero, at any depth. -/
def Node.AddsNonZero : Node → Prop
  | command c => c ≠ .add 0
  | loop _ body => ∀ n ∈ body, n.AddsNonZero

namespace Program

def units (p : Program) : Program :=
  p.flatMap Node.units

/-- No `add` of a program is by zero, at any depth. -/
def AddsNonZero (p : Program) : Prop :=
  ∀ n ∈ p, n.AddsNonZero

theorem units_command (c : Command) (rest : Program) :
    units (.command c :: rest) = c.units ++ units rest := by
  rw [units, List.flatMap_cons, Node.units]
  rfl

theorem units_loop (id : Nat) (body rest : Program) :
    units (.loop id body :: rest) = .loop id (units body) :: units rest := by
  rw [units, List.flatMap_cons, Node.units]
  rfl

theorem addsNonZero_command {c : Command} {rest : Program} :
    AddsNonZero (.command c :: rest) ↔ c ≠ .add 0 ∧ AddsNonZero rest := by
  rw [AddsNonZero, List.forall_mem_cons, Node.AddsNonZero]
  rfl

theorem addsNonZero_loop {id : Nat} {body rest : Program} :
    AddsNonZero (.loop id body :: rest) ↔ AddsNonZero body ∧ AddsNonZero rest := by
  rw [AddsNonZero, List.forall_mem_cons, Node.AddsNonZero]
  rfl

theorem symbols_cons (n : Node) (rest : Program) :
    symbols (n :: rest) = n.symbols ++ symbols rest :=
  List.flatMap_cons

theorem symbols_append (p q : Program) : symbols (p ++ q) = symbols p ++ symbols q :=
  List.flatMap_append

theorem symbols_replicate {c : Command} {s : Symbol} (h : s.command? = some c) (count : Nat) :
    symbols (List.replicate count (.command c)) = List.replicate count s := by
  induction count with
  | zero => rfl
  | succ count ih =>
      rw [List.replicate_succ, List.replicate_succ, symbols_cons, Node.symbols_command,
        Command.symbols_of_command? h, ih, List.singleton_append]

end Program

/-- The symbol of a step in the direction of an amount. -/
theorem command?_move (amount : Int) :
    (if amount < 0 then Symbol.left else Symbol.right).command? =
      some (.move (unitOf amount)) := by
  unfold unitOf
  split <;> rfl

theorem command?_add (amount : Int) :
    (if amount < 0 then Symbol.minus else Symbol.plus).command? =
      some (.add (unitOf amount)) := by
  unfold unitOf
  split <;> rfl

theorem Command.symbols_units (c : Command) : c.units.symbols = c.symbols := by
  cases c with
  | move amount => exact Program.symbols_replicate (command?_move amount) amount.natAbs
  | add amount => exact Program.symbols_replicate (command?_add amount) amount.natAbs
  | clear => simp [units, symbols, Program.symbols_cons, Node.symbols_loop, Node.symbols_command]
  | _ => simp [units, symbols, Program.symbols_cons, Node.symbols_command]

theorem Program.isPlain_replicate {c : Command} {s : Symbol} (h : s.command? = some c)
    (count : Nat) : IsPlain (List.replicate count (.command c)) := by
  intro n hn
  obtain rfl := List.eq_of_mem_replicate hn
  exact (Node.isPlain_command c).mpr ⟨s, h⟩

theorem Command.isPlain_units (c : Command) : c.units.IsPlain := by
  have hplus : Symbol.plus.command? = some (.add 1) := rfl
  have hdot : Symbol.dot.command? = some .print := rfl
  have hcomma : Symbol.comma.command? = some .read := rfl
  cases c with
  | move amount => exact Program.isPlain_replicate (command?_move amount) amount.natAbs
  | add amount => exact Program.isPlain_replicate (command?_add amount) amount.natAbs
  | clear =>
      exact List.forall_mem_singleton.mpr
        ((Node.isPlain_loop 0 _).mpr (Program.isPlain_replicate hplus 1))
  | print => exact Program.isPlain_replicate hdot 1
  | read => exact Program.isPlain_replicate hcomma 1

namespace Program

theorem symbols_units (p : Program) : p.units.symbols = p.symbols := by
  induction p using Program.induction with
  | nil => rfl
  | command c rest ih =>
      rw [units_command, symbols_append, c.symbols_units, ih, symbols_cons, Node.symbols_command]
  | loop id body rest ihBody ih =>
      rw [units_loop, symbols_cons, symbols_cons, Node.symbols_loop, Node.symbols_loop, ihBody, ih]

theorem isPlain_units (p : Program) : p.units.IsPlain := by
  induction p using Program.induction with
  | nil => exact List.forall_mem_nil _
  | command c rest ih =>
      rw [units_command]
      exact List.forall_mem_append.mpr ⟨c.isPlain_units, ih⟩
  | loop id body rest ihBody ih =>
      rw [units_loop]
      exact List.forall_mem_cons.mpr ⟨(Node.isPlain_loop id _).mpr ihBody, ih⟩

section Steps

-- Commands of a kind merge by adding their amounts.
variable {kind : Int → Command}
  (hmerge : ∀ a b, (kind a).merge? (kind b) = some (kind (a + b)))

include hmerge in
/-- Steps one behind the other are one step by their sum. -/
theorem equivalent_replicate (unit : Int) (count : Nat) (rest : Program) :
    Equivalent (List.replicate (count + 1) (.command (kind unit)) ++ rest)
      (.command (kind ((count + 1 : Nat) * unit)) :: rest) := by
  induction count with
  | zero => simpa using Equivalent.refl _
  | succ count ih =>
      have hsum : (kind unit).merge? (kind ((count + 1 : Nat) * unit)) =
          some (kind ((count + 1 + 1 : Nat) * unit)) := by
        rw [hmerge, Int.natCast_succ (count + 1), Int.add_mul, Int.one_mul, Int.add_comm]
      rw [List.replicate_succ, List.cons_append]
      exact (Equivalent.command (kind unit) ih).trans
        (.of_evaluates fun m final => evaluates_merge hsum)

include hmerge in
theorem equivalent_steps {amount : Int} (h : amount ≠ 0) (rest : Program) :
    Equivalent (.command (kind amount) :: rest)
      (List.replicate amount.natAbs (.command (kind (unitOf amount))) ++ rest) := by
  obtain ⟨count, hcount⟩ := Nat.exists_eq_add_one_of_ne_zero (Int.natAbs_ne_zero.mpr h)
  have hsteps := equivalent_replicate hmerge (unitOf amount) count rest
  rw [← hcount, natAbs_mul_unitOf] at hsteps
  exact hsteps.symm

end Steps

/-- A move by nothing does nothing. -/
theorem equivalent_move_zero (rest : Program) :
    Equivalent (.command (.move 0) :: rest) rest := by
  refine .of_evaluates fun m final => ?_
  have hact : m.act (Command.move 0).action = (.ok (), m) := by
    simp [Command.action, Machine.act, Tape.shift]
  rw [evaluates_command, hact, continues_ok]

theorem equivalent_command_units {c : Command} (h : c ≠ .add 0) (rest : Program) :
    Equivalent (.command c :: rest) (c.units ++ rest) := by
  cases c with
  | move amount =>
      by_cases hzero : amount = 0
      · subst hzero
        exact equivalent_move_zero rest
      · exact equivalent_steps (fun _ _ => rfl) hzero rest
  | add amount =>
      have hzero : amount ≠ 0 := by
        rintro rfl
        exact h rfl
      exact equivalent_steps (fun _ _ => rfl) hzero rest
  | clear => exact (stepLoop_equivalent_clear 0 (.inl rfl) rest).symm
  | _ => exact .refl _

/-- In single steps a program does what it did, if no `add` of it is by zero. -/
theorem equivalent_units {p : Program} (h : p.AddsNonZero) : Equivalent p p.units := by
  induction p using Program.induction with
  | nil => exact .refl []
  | command c rest ih =>
      obtain ⟨hc, hrest⟩ := addsNonZero_command.mp h
      rw [units_command]
      exact (Equivalent.command c (ih hrest)).trans (equivalent_command_units hc rest.units)
  | loop id body rest ihBody ih =>
      obtain ⟨hbody, hrest⟩ := addsNonZero_loop.mp h
      rw [units_loop]
      exact .loop id id (ihBody hbody) (ih hrest)

section Source

/-- A command is printed in the characters of its symbols. -/
theorem source_command (c : Command) : c.source = c.symbols.map Symbol.toChar := by
  cases c with
  | move amount =>
      rw [Command.source, Command.symbols, List.map_replicate]
      split <;> rfl
  | add amount =>
      rw [Command.source, Command.symbols, List.map_replicate]
      split <;> rfl
  | _ => rfl

theorem sourceChars_eq (p : Program) : p.sourceChars = p.symbols.map Symbol.toChar := by
  induction p using Program.induction with
  | nil => rfl
  | command c rest ih =>
      rw [sourceChars_command, source_command, ih, symbols_cons, Node.symbols_command,
        List.map_append]
  | loop id body rest ihBody ih =>
      rw [sourceChars_loop, ihBody, ih, symbols_cons, Node.symbols_loop]
      simp [Symbol.toChar]

theorem sourceSymbols_source (p : Program) : sourceSymbols p.source = p.symbols := by
  have hread : Symbol.ofChar? ∘ Symbol.toChar = some := funext Symbol.ofChar?_toChar
  rw [sourceSymbols, source, String.toList_ofList, sourceChars_eq, List.filterMap_map, hread,
    List.filterMap_some]

end Source

section Brackets

theorem closes_replicate {s : Symbol} (hopen : s ≠ .openLoop) (hclose : s ≠ .closeLoop)
    (count depth : Nat) (w : List Symbol) :
    Symbol.Closes depth (List.replicate count s ++ w) ↔ Symbol.Closes depth w := by
  induction count with
  | zero => rfl
  | succ count ih =>
      rw [List.replicate_succ, List.cons_append, Symbol.closes_other depth hopen hclose, ih]

theorem closes_command (c : Command) (depth : Nat) (w : List Symbol) :
    Symbol.Closes depth (c.symbols ++ w) ↔ Symbol.Closes depth w := by
  cases c with
  | move amount => exact closes_replicate (by split <;> decide) (by split <;> decide) _ depth w
  | add amount => exact closes_replicate (by split <;> decide) (by split <;> decide) _ depth w
  | clear =>
      simp [Command.symbols, Symbol.closes_openLoop, Symbol.closes_other, Symbol.closes_closeLoop]
  | _ => exact Symbol.closes_other depth (by decide) (by decide)

/-- What a program is spelled as closes the loops that it opens. -/
theorem closes_symbols (p : Program) (depth : Nat) (w : List Symbol) :
    Symbol.Closes depth (p.symbols ++ w) ↔ Symbol.Closes depth w := by
  induction p using Program.induction generalizing depth w with
  | nil => rfl
  | command c rest ih =>
      rw [symbols_cons, Node.symbols_command, List.append_assoc, closes_command, ih]
  | loop id body rest ihBody ih =>
      rw [symbols_cons, Node.symbols_loop]
      simp only [List.cons_append, List.append_assoc, List.nil_append]
      rw [Symbol.closes_openLoop, ihBody, Symbol.closes_closeLoop]
      simp [ih]

theorem bracketsMatch_symbols (p : Program) : Symbol.BracketsMatch p.symbols := by
  have hclosed := (closes_symbols p 0 []).mpr ((Symbol.closes_nil 0).mpr rfl)
  rwa [List.append_nil, Symbol.closes_zero_iff] at hclosed

end Brackets

/-- The source of every program is read again, as a plain program with the same symbols. -/
theorem exists_ofSource_source (p : Program) :
    ∃ q : Program, q.IsPlain ∧ q.symbols = p.symbols ∧ ofSource p.source = .ok q.withClears := by
  have hmatch : Symbol.BracketsMatch (Token.symbols (scan p.source)) := by
    rw [symbols_scan, sourceSymbols_source]
    exact bracketsMatch_symbols p
  obtain ⟨q, hplain, hspelled, hread⟩ := ofTokens_of_bracketsMatch hmatch
  rw [symbols_scan, sourceSymbols_source] at hspelled
  exact ⟨q, hplain, hspelled, hread⟩

/-- If no `add` of a program is by zero, what is read from its source ends on every machine
exactly as the program does. -/
theorem ofSource_source_ends_iff {p : Program} (h : p.AddsNonZero) :
    ∃ q, ofSource p.source = .ok q ∧ ∀ m outcome, q.Ends m outcome ↔ p.Ends m outcome := by
  obtain ⟨q, hplain, hspelled, hread⟩ := exists_ofSource_source p
  have htokens : Token.symbols (scan p.source) = p.symbols :=
    (symbols_scan p.source).trans (sourceSymbols_source p)
  refine ⟨q.withClears, hread, fun m outcome => ?_⟩
  calc q.withClears.Ends m outcome
      ↔ q.Ends m outcome := ((equivalent_withClears hplain).ends_iff m outcome).symm
    _ ↔ TokensEnd (scan p.source) m outcome :=
        ends_iff_tokensEnd hplain (hspelled.trans htokens.symm) m outcome
    _ ↔ p.units.Ends m outcome :=
        (ends_iff_tokensEnd (isPlain_units p) ((symbols_units p).trans htokens.symm) m
          outcome).symm
    _ ↔ p.Ends m outcome := ((equivalent_units h).ends_iff m outcome).symm

/-- Loops with equal ids, one of them without a body and one that is read as a clear. -/
theorem ofSource_source_ends_iff_product :
    let p : Program :=
      [.command (.add 3), .command (.move 0),
        .loop 7 [.command (.add (-1)), .command (.move 1), .command (.add 5),
          .command (.move (-1))],
        .loop 7 [.command (.add (-1))], .loop 7 [], .command (.move 1), .command .print]
    let m : Machine := { tape := ⟨#[0, 0], 0⟩ }
    let outcome : Outcome Unit :=
      (.ok (), ⟨⟨#[0, 15], 1⟩, [], { written := #[15], flushes := 1 }⟩)
    p.AddsNonZero ∧ p.source = "+++[->+++++<][-][]>." ∧ p.Ends m outcome ∧
      ∃ q, ofSource p.source = .ok q ∧ q.Ends m outcome := by
  intro p m outcome
  have hadds : p.AddsNonZero := by simp [p, AddsNonZero, Node.AddsNonZero]
  have hchars : p.sourceChars = "+++[->+++++<][-][]>.".toList := by
    simp [p, sourceChars_command, sourceChars_loop, Command.source, List.replicate]
  have hsource : p.source = "+++[->+++++<][-][]>." := by
    rw [source, hchars, String.ofList_toList]
  have hends : p.Ends m outcome := ⟨30, by decide +kernel⟩
  obtain ⟨q, hread, hiff⟩ := ofSource_source_ends_iff hadds
  exact ⟨hadds, hsource, hends, q, hread, (hiff m outcome).mpr hends⟩

end Program

end TapeCompiler
