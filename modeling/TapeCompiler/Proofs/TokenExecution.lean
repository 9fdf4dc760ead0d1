import TapeCompiler.Proofs.Ending
import TapeCompiler.Proofs.Flattening
import TapeCompiler.Proofs.Reading

/-!
# Running the tokens themselves

The meaning of a source text without any tree: one step for each token, and jumps that
look for the matching bracket along the tokens. `TokenRun.step` is that engine.
`ends_iff_tokensEnd` says that it ends as the walk along a plain program does that the
tokens spell. The two take the same number of steps, as flat code does.
-/

namespace TapeCompiler

/-- How many tokens it takes to the bracket that matches, that bracket included. On the
way `inner` enters a loop, `outer` leaves one, and `depth` loops are to be left first. -/
def distance (inner outer : Symbol) : Nat → List TokenKind → Nat
  | _, [] => 0
  | depth, kind :: rest =>
      if kind = .symbol inner then distance inner outer (depth + 1) rest + 1
      else if kind = .symbol outer then
        match depth with
        | 0 => 1
        | depth + 1 => distance inner outer depth rest + 1
      else distance inner outer depth rest + 1

/-- A run of tokens: the place of the next token, and the machine. -/
structure TokenRun where
  place : Nat := 0
  machine : Machine

namespace TokenRun

def act (run : TokenRun) (action : Action) : Transition TokenRun (Outcome Unit) :=
  match run.machine.act action with
  | (.ok _, m) => .next ⟨run.place + 1, m⟩
  | (.error fault, m) => .stop (.error fault, m)

def test (run : TokenRun) (onZero onOther : Nat) : Transition TokenRun (Outcome Unit) :=
  match run.machine.isZero with
  | .error fault => .stop (.error fault, run.machine)
  | .ok zero => .next ⟨if zero then onZero else onOther, run.machine⟩

/-- Runs the token at the current place. A bracket jumps behind the one it matches: the
opening one on a zero cell, the closing one on any other. -/
def step (kinds : List TokenKind) (run : TokenRun) : Transition TokenRun (Outcome Unit) :=
  match kinds[run.place]? with
  | none => .stop run.machine.flush
  | some .endOfText => .stop run.machine.flush
  | some (.symbol .right) => run.act (.shift 1)
  | some (.symbol .left) => run.act (.shift (-1))
  | some (.symbol .plus) => run.act (.add 1)
  | some (.symbol .minus) => run.act (.add (-1))
  | some (.symbol .dot) => run.act .write
  | some (.symbol .comma) => run.act .read
  | some (.symbol .openLoop) =>
      let next := run.place + 1
      run.test (next + distance .openLoop .closeLoop 0 (kinds.drop next)) next
  | some (.symbol .closeLoop) =>
      let next := run.place + 1
      run.test next (next - distance .closeLoop .openLoop 0 (kinds.take run.place).reverse)

end TokenRun

def TokensEnd (tokens : List Token) (m : Machine) (outcome : Outcome Unit) : Prop :=
  Transition.Ends (TokenRun.step (tokens.map Token.kind)) ⟨0, m⟩ outcome

section Passed

variable {inner outer : Symbol} {kinds kinds' : List TokenKind}

/-- Tokens that the search for a bracket passes over, at any depth. -/
def Passed (inner outer : Symbol) (kinds : List TokenKind) : Prop :=
  ∀ depth rest, distance inner outer depth (kinds ++ rest) =
    kinds.length + distance inner outer depth rest

theorem passed_nil (inner outer : Symbol) : Passed inner outer [] :=
  fun _ _ => (Nat.zero_add _).symm

theorem Passed.append (h : Passed inner outer kinds) (h' : Passed inner outer kinds') :
    Passed inner outer (kinds ++ kinds') := by
  intro depth rest
  rw [List.append_assoc, h, h', List.length_append, Nat.add_assoc]

theorem passed_singleton {kind : TokenKind} (hinner : kind ≠ .symbol inner)
    (houter : kind ≠ .symbol outer) : Passed inner outer [kind] := by
  intro depth rest
  simp [distance, hinner, houter, Nat.add_comm]

theorem Passed.enclose (h : Passed inner outer kinds) (hne : inner ≠ outer) :
    Passed inner outer (.symbol inner :: kinds ++ [.symbol outer]) := by
  intro depth rest
  simp [distance, h (depth + 1), hne.symm]
  omega

theorem Passed.distance_eq (h : Passed inner outer kinds) (hne : inner ≠ outer)
    (rest : List TokenKind) :
    distance inner outer 0 (kinds ++ .symbol outer :: rest) = kinds.length + 1 := by
  rw [h]
  simp [distance, hne.symm]

end Passed

def Node.kinds (n : Node) : List TokenKind :=
  n.symbols.map .symbol

namespace Program

theorem flatMap_kinds (p : Program) : p.flatMap Node.kinds = p.symbols.map .symbol := by
  rw [symbols, List.map_flatMap]
  rfl

theorem kinds_loop (id : Nat) (body : Program) :
    (Node.loop id body).kinds =
      .symbol .openLoop :: body.flatMap Node.kinds ++ [.symbol .closeLoop] := by
  simp [Node.kinds, Node.symbols_loop, flatMap_kinds]

theorem length_kinds_loop (id : Nat) (body : Program) :
    (Node.loop id body).kinds.length = (body.flatMap Node.kinds).length + 2 := by
  rw [kinds_loop]
  simp

theorem kinds_command {s : Symbol} {c : Command} (h : s.command? = some c) :
    (Node.command c).kinds = [.symbol s] := by
  rw [Node.kinds, Node.symbols_command, Command.symbols_of_command? h, List.map_singleton]

/-- The search for a bracket passes over plain programs, forward and back. -/
theorem passed_kinds {p : Program} (hplain : p.IsPlain) :
    Passed .openLoop .closeLoop (p.flatMap Node.kinds) ∧
      Passed .closeLoop .openLoop (p.flatMap Node.kinds).reverse := by
  induction p using Program.induction with
  | nil => exact ⟨passed_nil _ _, passed_nil _ _⟩
  | command c rest ih =>
      obtain ⟨hc, hrest⟩ := List.forall_mem_cons.mp hplain
      obtain ⟨s, hs⟩ := (Node.isPlain_command c).mp hc
      obtain ⟨hforward, hback⟩ := ih hrest
      have hopen : TokenKind.symbol s ≠ .symbol .openLoop := by rintro ⟨⟩; cases hs
      have hclose : TokenKind.symbol s ≠ .symbol .closeLoop := by rintro ⟨⟩; cases hs
      rw [List.flatMap_cons, kinds_command hs, List.reverse_append, List.reverse_singleton]
      exact ⟨(passed_singleton hopen hclose).append hforward,
        hback.append (passed_singleton hclose hopen)⟩
  | loop id body rest ihBody ih =>
      obtain ⟨hloop, hrest⟩ := List.forall_mem_cons.mp hplain
      obtain ⟨hforward, hback⟩ := ih hrest
      obtain ⟨hbody, hbodyBack⟩ := ihBody ((Node.isPlain_loop id body).mp hloop)
      rw [List.flatMap_cons, kinds_loop, List.reverse_append]
      refine ⟨(hbody.enclose (by decide)).append hforward, hback.append ?_⟩
      simpa using hbodyBack.enclose (by decide)

variable {start id : Nat} {body : Program} {kinds : List TokenKind}

theorem distance_to_closeLoop (hplain : body.IsPlain)
    (hat : (Node.loop id body).kinds <+: kinds.drop start) :
    distance .openLoop .closeLoop 0 (kinds.drop (start + 1)) =
      (body.flatMap Node.kinds).length + 1 := by
  obtain ⟨after, hafter⟩ := hat
  rw [← List.drop_drop, ← hafter, kinds_loop]
  simpa using (passed_kinds hplain).1.distance_eq (by decide) after

theorem distance_to_openLoop (hplain : body.IsPlain)
    (hat : (Node.loop id body).kinds <+: kinds.drop start) :
    distance .closeLoop .openLoop 0
        (kinds.take (start + (body.flatMap Node.kinds).length + 1)).reverse =
      (body.flatMap Node.kinds).length + 1 := by
  obtain ⟨after, hafter⟩ := hat
  have htake : kinds.take (start + (body.flatMap Node.kinds).length + 1) =
      kinds.take start ++ .symbol .openLoop :: body.flatMap Node.kinds := by
    rw [Nat.add_assoc, List.take_add, ← hafter, kinds_loop]
    simp
  rw [htake]
  simpa using (passed_kinds hplain).2.distance_eq (by decide) (kinds.take start).reverse

end Program

namespace TokenRun

theorem step_of_command? {kinds : List TokenKind} {run : TokenRun} {s : Symbol} {c : Command}
    (hfetch : kinds[run.place]? = some (.symbol s)) (h : s.command? = some c) :
    run.step kinds = run.act c.action := by
  rw [step, hfetch]
  cases s <;> cases h <;> rfl

/-- The walk along a plain program and the run of the tokens that spell it stand at the
same point. -/
structure Corresponds (kinds : List TokenKind) (last : Nat) (walk : Walk) (run : TokenRun) :
    Prop where
  leads : Program.Leads Node.kinds kinds last run.place walk.todo
  machine : walk.machine = run.machine
  plain : Program.IsPlain walk.todo

theorem Corresponds.step {kinds : List TokenKind} {last : Nat}
    (hlast : kinds[last]? = none ∨ kinds[last]? = some .endOfText) {walk : Walk}
    {run : TokenRun} (h : Corresponds kinds last walk run) :
    Transition.Agree (Corresponds kinds last) Eq walk.step (run.step kinds) := by
  obtain ⟨todo, m⟩ := walk
  obtain ⟨place, m'⟩ := run
  obtain ⟨hleads, rfl, hplain⟩ := h
  simp only at hleads hplain ⊢
  cases hleads with
  | stop =>
      rcases hlast with hfetch | hfetch <;> simp only [TokenRun.step, hfetch] <;>
        exact .stop rfl
  | @node _ n rest hat hrest =>
      obtain ⟨hn, hplainRest⟩ := List.forall_mem_cons.mp hplain
      cases n with
      | command c =>
          obtain ⟨s, hs⟩ := (Node.isPlain_command c).mp hn
          rw [Program.kinds_command hs] at hat hrest
          rw [Walk.step, step_of_command? (getElem?_of_isPrefix_drop hat) hs, act]
          rcases m.act c.action with ⟨fault | ⟨⟩, m'⟩
          · exact .stop rfl
          · exact .next ⟨hrest, rfl, hplainRest⟩
      | loop id body =>
          have hbody := (Node.isPlain_loop id body).mp hn
          have hturn := Program.Leads.body (Program.kinds_loop id body) hat hrest
          have hdistance := Program.distance_to_closeLoop hbody hat
          rw [Program.length_kinds_loop] at hrest
          rw [Program.kinds_loop] at hat
          simp only [TokenRun.step, getElem?_of_isPrefix_drop hat, hdistance, test, Walk.step]
          rcases m.isZero with fault | _ | _
          · exact .stop rfl
          · exact .next ⟨hturn, rfl, List.forall_mem_append.mpr ⟨hbody, hplain⟩⟩
          · have hskip : place + 1 + ((body.flatMap Node.kinds).length + 1) =
                place + ((body.flatMap Node.kinds).length + 2) := by omega
            exact .next ⟨hskip ▸ hrest, rfl, hplainRest⟩
  | @again start id body rest hat hrest =>
      obtain ⟨hn, hplainRest⟩ := List.forall_mem_cons.mp hplain
      have hbody := (Node.isPlain_loop id body).mp hn
      have hturn := Program.Leads.body (Program.kinds_loop id body) hat hrest
      have hdistance := Program.distance_to_openLoop hbody hat
      have hfetch : kinds[start + (body.flatMap Node.kinds).length + 1]? =
          some (.symbol .closeLoop) := by
        rw [Program.kinds_loop] at hat
        exact getElem?_of_isPrefix_drop (isPrefix_drop_of_append hat)
      rw [Program.length_kinds_loop] at hrest
      simp only [TokenRun.step, hfetch, hdistance, test, Walk.step]
      rcases m.isZero with fault | _ | _
      · exact .stop rfl
      · have hback : start + (body.flatMap Node.kinds).length + 1 + 1 -
            ((body.flatMap Node.kinds).length + 1) = start + 1 := by omega
        exact .next ⟨hback ▸ hturn, rfl, List.forall_mem_append.mpr ⟨hbody, hplain⟩⟩
      · exact .next ⟨hrest, rfl, hplainRest⟩

end TokenRun

theorem kinds_eq_symbols_append (tokens : List Token) :
    ∃ rest, tokens.map Token.kind = (Token.symbols tokens).map .symbol ++ rest ∧
      (rest[0]? = none ∨ rest[0]? = some .endOfText) := by
  induction tokens with
  | nil => exact ⟨[], rfl, .inl rfl⟩
  | cons token tokens ih =>
      obtain ⟨kind, line⟩ := token
      cases kind with
      | endOfText => exact ⟨.endOfText :: tokens.map Token.kind, rfl, .inr rfl⟩
      | symbol s =>
          obtain ⟨rest, heq, hhead⟩ := ih
          exact ⟨rest, by rw [List.map_cons, heq]; rfl, hhead⟩

/-- Tokens that spell a plain program end as the walk along it does. -/
theorem Program.ends_iff_tokensEnd {p : Program} (hplain : p.IsPlain) {tokens : List Token}
    (hspelled : p.symbols = Token.symbols tokens) (m : Machine) (outcome : Outcome Unit) :
    p.Ends m outcome ↔ TokensEnd tokens m outcome := by
  obtain ⟨rest, hkinds, hhead⟩ := kinds_eq_symbols_append tokens
  rw [← hspelled, ← flatMap_kinds] at hkinds
  have hlast : (tokens.map Token.kind)[(p.flatMap Node.kinds).length]? = none ∨
      (tokens.map Token.kind)[(p.flatMap Node.kinds).length]? = some .endOfText := by
    rw [hkinds, List.getElem?_append_right (Nat.le_refl _), Nat.sub_self]
    exact hhead
  have hstart : TokenRun.Corresponds (tokens.map Token.kind) (p.flatMap Node.kinds).length
      ⟨p, m⟩ ⟨0, m⟩ :=
    ⟨leads_of_isPrefix (hkinds ▸ List.prefix_append _ _), rfl, hplain⟩
  have hrun := Transition.run_eq_of_lockstep
    (fun _ _ => TokenRun.Corresponds.step hlast) hstart
  refine exists_congr fun fuel => ?_
  rw [Program.run, hrun fuel]

end TapeCompiler
