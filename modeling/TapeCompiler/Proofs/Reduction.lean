import TapeCompiler.Program.Optimizer

/-!
# Reduced programs

`Program.reduce` does from the right and at every depth at once what folding does pass by
pass. A node that is put in front of a reduced block merges with the first node there and
is dropped if nothing is left of it, so the block stays `Folded`. Folding a program any
number of times does not change what it reduces to (`reduce_fold`, `reduce_foldAll`),
because three commands of a kind merge to the same one in either order.
-/

namespace TapeCompiler

namespace Command

variable {c d e x y : Command}

/-- Three commands merge to the same one in either order. -/
theorem merge?_merge? (h : c.merge? d = some e) (hx : d.merge? x = some y) :
    ∃ z, c.merge? y = some z ∧ e.merge? x = some z := by
  cases c <;> cases d <;> cases h <;> cases x <;> cases hx <;>
    simp [merge?, Int.add_assoc]

theorem merge?_eq_none (h : c.merge? d = some e) (hx : d.merge? x = none) :
    c.merge? x = none ∧ e.merge? x = none := by
  cases c <;> cases d <;> cases h <;> cases x <;> simp_all [merge?]

theorem eq_of_merge?_left (h : c.merge? d = some e)
    (hc : (Node.command c).isEffective = false) : e = d := by
  cases c <;> cases d <;> cases h <;> simp_all [Node.isEffective]

theorem eq_of_merge?_right (h : c.merge? d = some e)
    (hd : (Node.command d).isEffective = false) : e = c := by
  cases c <;> cases d <;> cases h <;> simp_all [Node.isEffective]

end Command

namespace Node

/-- Puts a node in front of a block, unless the node has no effect. -/
def keepOnto (n : Node) (rest : Program) : Program :=
  if n.isEffective then n :: rest else rest

/-- Puts a node in front of a block, where it merges if it can. Nothing is left of it if
it has no effect then. -/
def reduceOnto (n : Node) (rest : Program) : Program :=
  match n.mergeOnto rest with
  | [] => []
  | first :: others => first.keepOnto others

/-- A node does not merge with what follows it. -/
def Apart (n : Node) (rest : Program) : Prop :=
  n.mergeOnto rest = n :: rest

variable {n : Node} {c d e : Command} {rest : Program}

theorem keepOnto_of_isEffective (h : n.isEffective = true) (rest : Program) :
    n.keepOnto rest = n :: rest :=
  if_pos h

theorem keepOnto_of_not_isEffective (h : n.isEffective = false) (rest : Program) :
    n.keepOnto rest = rest := by
  simp [keepOnto, h]

theorem reduceOnto_of_apart (h : n.Apart rest) : n.reduceOnto rest = n.keepOnto rest := by
  unfold Apart at h
  rw [reduceOnto, h]

theorem mergeOnto_of_merge? (h : c.merge? d = some e) (rest : Program) :
    (command c).mergeOnto (.command d :: rest) = .command e :: rest := by
  simp [mergeOnto, h]

theorem reduceOnto_of_merge? (h : c.merge? d = some e) (rest : Program) :
    (command c).reduceOnto (.command d :: rest) = (command e).keepOnto rest := by
  rw [reduceOnto, mergeOnto_of_merge? h]

theorem apart_loop (id : Nat) (body rest : Program) : (loop id body).Apart rest := by
  simp [Apart, mergeOnto]

theorem apart_command_iff :
    (command c).Apart rest ↔ ∀ d others, rest = .command d :: others → c.merge? d = none := by
  constructor
  · rintro h d others rfl
    cases hmerge : c.merge? d with
    | none => rfl
    | some e =>
        rw [Apart, mergeOnto_of_merge? hmerge] at h
        simpa using congrArg List.length h
  · intro h
    unfold Apart mergeOnto
    split
    next heq =>
      cases heq
      rw [h _ _ rfl]
    next => rfl

/-- A command merges with the node that follows it, or with none. -/
theorem apart_or_merge? (c : Command) (rest : Program) :
    (command c).Apart rest ∨
      ∃ d others e, rest = .command d :: others ∧ c.merge? d = some e := by
  by_cases h : (command c).Apart rest
  · exact .inl h
  · rw [apart_command_iff] at h
    simp only [Classical.not_forall] at h
    obtain ⟨d, others, heq, hmerge⟩ := h
    obtain ⟨e, he⟩ := Option.ne_none_iff_exists'.mp hmerge
    exact .inr ⟨d, others, e, heq, he⟩

theorem Apart.of_merge? (h : c.merge? d = some e) (hd : (command d).Apart rest) :
    (command c).Apart rest ∧ (command e).Apart rest := by
  rw [apart_command_iff] at hd
  constructor <;> rw [apart_command_iff] <;> intro x others heq
  · exact (Command.merge?_eq_none h (hd x others heq)).1
  · exact (Command.merge?_eq_none h (hd x others heq)).2

end Node

namespace Program

/-- Every node of a block has an effect, and no two neighbours merge. -/
def Folded : Program → Prop
  | [] => True
  | n :: rest => n.isEffective = true ∧ n.Apart rest ∧ Folded rest

theorem Folded.keepOnto {n : Node} {rest : Program} (hn : n.Apart rest)
    (hrest : Folded rest) : Folded (n.keepOnto rest) := by
  cases h : n.isEffective with
  | true =>
      rw [Node.keepOnto_of_isEffective h]
      exact ⟨h, hn, hrest⟩
  | false => rwa [Node.keepOnto_of_not_isEffective h]

theorem Folded.reduceOnto {rest : Program} (hrest : Folded rest) (n : Node) :
    Folded (n.reduceOnto rest) := by
  cases n with
  | loop id body =>
      rw [Node.reduceOnto_of_apart (Node.apart_loop id body rest)]
      exact .keepOnto (Node.apart_loop id body rest) hrest
  | command c =>
      rcases Node.apart_or_merge? c rest with hc | ⟨d, others, e, rfl, hmerge⟩
      · rw [Node.reduceOnto_of_apart hc]
        exact .keepOnto hc hrest
      · obtain ⟨-, hd, hothers⟩ := hrest
        rw [Node.reduceOnto_of_merge? hmerge]
        exact .keepOnto (hd.of_merge? hmerge).2 hothers

/-- A node without an effect leaves no trace in front of a folded block. -/
theorem Folded.reduceOnto_of_not_isEffective {rest : Program} (hrest : Folded rest)
    {n : Node} (h : n.isEffective = false) : n.reduceOnto rest = rest := by
  cases n with
  | loop id body =>
      rw [Node.reduceOnto_of_apart (Node.apart_loop id body rest),
        Node.keepOnto_of_not_isEffective h]
  | command c =>
      rcases Node.apart_or_merge? c rest with hc | ⟨d, others, e, rfl, hmerge⟩
      · rw [Node.reduceOnto_of_apart hc, Node.keepOnto_of_not_isEffective h]
      · obtain rfl := Command.eq_of_merge?_left hmerge h
        rw [Node.reduceOnto_of_merge? hmerge, Node.keepOnto_of_isEffective hrest.1]

theorem reduceOnto_keepOnto {c d e : Command} {rest : Program} (h : c.merge? d = some e)
    (hd : (Node.command d).Apart rest) :
    (Node.command c).reduceOnto ((Node.command d).keepOnto rest) =
      (Node.command e).keepOnto rest := by
  cases heffective : (Node.command d).isEffective with
  | true => rw [Node.keepOnto_of_isEffective heffective, Node.reduceOnto_of_merge? h]
  | false =>
      obtain rfl := Command.eq_of_merge?_right h heffective
      rw [Node.keepOnto_of_not_isEffective heffective,
        Node.reduceOnto_of_apart (hd.of_merge? h).1]

/-- Two commands that merge can be put in front one by one or merged. -/
theorem Folded.reduceOnto_reduceOnto {rest : Program} (hrest : Folded rest)
    {c d e : Command} (h : c.merge? d = some e) :
    (Node.command c).reduceOnto ((Node.command d).reduceOnto rest) =
      (Node.command e).reduceOnto rest := by
  rcases Node.apart_or_merge? d rest with hd | ⟨x, others, y, rfl, hmerge⟩
  · rw [Node.reduceOnto_of_apart hd, Node.reduceOnto_of_apart (hd.of_merge? h).2,
      reduceOnto_keepOnto h hd]
  · -- `d` merges with the first command of the rest, so all three come together there.
    obtain ⟨-, hx, -⟩ := hrest
    obtain ⟨z, hz, hez⟩ := Command.merge?_merge? h hmerge
    rw [Node.reduceOnto_of_merge? hmerge, Node.reduceOnto_of_merge? hez,
      reduceOnto_keepOnto hz (hx.of_merge? hmerge).2]

end Program

mutual

def Node.reduceBody : Node → Node
  | .command c => .command c
  | .loop id body => .loop id (Program.reduce body)

/-- Folds a program at every depth until nothing more merges or cancels. -/
def Program.reduce : Program → Program
  | [] => []
  | n :: rest => (Node.reduceBody n).reduceOnto (Program.reduce rest)

end

theorem Node.reduceBody_of_not_isEffective {n : Node} (h : n.isEffective = false) :
    n.reduceBody.isEffective = false := by
  cases n with
  | command c => exact h
  | loop id body =>
      obtain rfl : body = [] := by simpa [isEffective] using h
      rfl

namespace Program

@[simp] theorem reduce_nil : reduce [] = [] := rfl

theorem reduce_cons (n : Node) (rest : Program) :
    reduce (n :: rest) = n.reduceBody.reduceOnto (reduce rest) := rfl

theorem folded_reduce (p : Program) : Folded p.reduce := by
  induction p with
  | nil => trivial
  | cons n rest ih =>
      rw [reduce_cons]
      exact ih.reduceOnto n.reduceBody

theorem reduce_mergeOnto (n : Node) (rest : Program) :
    reduce (n.mergeOnto rest) = reduce (n :: rest) := by
  cases n with
  | loop id body => rw [Node.apart_loop id body rest]
  | command c =>
      rcases Node.apart_or_merge? c rest with hc | ⟨d, others, e, rfl, hmerge⟩
      · rw [hc]
      · rw [Node.mergeOnto_of_merge? hmerge]
        exact ((folded_reduce others).reduceOnto_reduceOnto hmerge).symm

theorem reduce_mergeRuns (block : Program) : reduce block.mergeRuns = reduce block := by
  induction block with
  | nil => rfl
  | cons n rest ih => rw [mergeRuns_cons, reduce_mergeOnto, reduce_cons, ih, reduce_cons]

theorem reduce_filter_isEffective (block : Program) :
    reduce (block.filter Node.isEffective) = reduce block := by
  induction block with
  | nil => rfl
  | cons n rest ih =>
      rw [List.filter_cons, reduce_cons]
      split
      next => rw [reduce_cons, ih]
      next h =>
        have hbody := Node.reduceBody_of_not_isEffective (Bool.not_eq_true _ ▸ h)
        rw [ih, (folded_reduce rest).reduceOnto_of_not_isEffective hbody]

theorem reduce_fold (block : Program) : reduce block.fold = reduce block := by
  rw [fold, reduce_filter_isEffective, reduce_mergeRuns]

theorem reduce_map_foldBody {block : Program}
    (h : ∀ id body, .loop id body ∈ block → reduce (foldAll body) = reduce body) :
    reduce (block.map Node.foldBody) = reduce block := by
  induction block with
  | nil => rfl
  | cons n rest ih =>
      have hbody : n.foldBody.reduceBody = n.reduceBody := by
        cases n with
        | command c => rfl
        | loop id body => exact congrArg (Node.loop id) (h id body List.mem_cons_self)
      rw [List.map_cons, reduce_cons, reduce_cons, hbody,
        ih fun id body hmem => h id body (List.mem_cons_of_mem n hmem)]

theorem reduce_foldAll (p : Program) : reduce p.foldAll = reduce p := by
  induction p using Program.induction_bodies with
  | block p ih =>
      rw [foldAll_eq, reduce_map_foldBody, reduce_fold]
      exact fun id body hmem => ih id body (mem_of_loop_mem_fold hmem)

end Program

end TapeCompiler
