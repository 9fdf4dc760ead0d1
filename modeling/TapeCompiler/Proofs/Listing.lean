import TapeCompiler.Code
import TapeCompiler.Proofs.AmountRange
import TapeCompiler.Proofs.Outline
import TapeCompiler.Proofs.Words

/-!
# What a listing tells

A listing tells the code that is listed (`listing_injective`): two lines at the same place
start alike, so only the texts of the instructions can differ, and these tell the
instructions. Code tells the program (`code_eq_iff_sameTree`), whatever its offsets are: the
two jumps of a loop are the ends of the loop in the outline. What code keeps of a command is
its action, and where amounts have 32 bits this is all but the multiple of 256 in an amount
that is added (`Command.action_eq_iff`).
-/

namespace TapeCompiler

namespace Instruction

def kind : Instruction → PartKind
  | act (.shift _) => .move
  | act (.add _) => .add
  | act .clear => .clear
  | act .read => .read
  | act .write => .print
  | jumpForward _ => .opening
  | jumpBack _ => .closing

/-- What the text of an instruction starts with. -/
def front : PartKind → String
  | .move => "shift "
  | .add => "add "
  | .clear => "zero"
  | .print => "write"
  | .read => "read"
  | .opening => "jz +"
  | .closing => "jnz -"

/-- The number of an instruction, which ends its text. -/
def operand : Instruction → String
  | act (.shift amount) => toString amount.toInt
  | act (.add value) => toString value.toNat
  | jumpForward offset => toString offset.toNat
  | jumpBack offset => toString offset.toNat
  | _ => ""

theorem text_eq (i : Instruction) : i.text = front i.kind ++ i.operand := by
  rcases i with (_ | _ | _ | _ | _) | _ | _ <;> rfl

theorem toldBy_front : PartKind.ToldBy front := by decide

theorem eq_of_operand_eq {i j : Instruction} (hkind : i.kind = j.kind)
    (hoperand : i.operand = j.operand) : i = j := by
  rcases i with (amount | value | _ | _ | _) | offset | offset <;>
    rcases j with (amount' | value' | _ | _ | _) | offset' | offset' <;>
    simp only [kind, reduceCtorEq] at hkind
  · exact congrArg _ (congrArg _ (Int64.toInt_inj.mp (eq_of_toString_int_eq hoperand)))
  · exact congrArg _ (congrArg _ (UInt8.toNat_inj.mp (eq_of_toString_eq hoperand)))
  · rfl
  · rfl
  · rfl
  · exact congrArg _ (UInt64.toNat_inj.mp (eq_of_toString_eq hoperand))
  · exact congrArg _ (UInt64.toNat_inj.mp (eq_of_toString_eq hoperand))

theorem text_injective {i j : Instruction} (h : i.text = j.text) : i = j := by
  rw [text_eq, text_eq] at h
  obtain ⟨hkind, hoperand⟩ := toldBy_front.append_inj h
  exact eq_of_operand_eq hkind hoperand

theorem onOneLine_text (i : Instruction) : OnOneLine i.text := by
  have hfront : OnOneLine (front i.kind) := by
    cases i.kind <;> decide
  have hoperand : OnOneLine i.operand := by
    rcases i with (amount | value | _ | _ | _) | offset | offset
    case act.shift => exact (isWord_toString_int _).onOneLine
    case act.add => exact (isWord_toString _).onOneLine
    case jumpForward => exact (isWord_toString _).onOneLine
    case jumpBack => exact (isWord_toString _).onOneLine
    all_goals decide
  rw [text_eq]
  exact onOneLine_append hfront hoperand

/-- What an instruction is in the outline of its program. -/
def part : Instruction → Part Action
  | act action => .command action
  | jumpForward _ => .opening
  | jumpBack _ => .closing

end Instruction

/-- A line of a listing tells its instruction, and where it ends, if its place is known. -/
theorem listingLine_append_inj {place : Nat} {i j : Instruction} {s t : String}
    (h : listingLine place i ++ s = listingLine place j ++ t) : i = j ∧ s = t := by
  simp only [listingLine, String.append_assoc, String.append_right_inj] at h
  have hbreak (i : Instruction) : '\n' ∉ i.text.toList := fun hmem =>
    absurd rfl (i.onOneLine_text _ hmem).1
  have hchars : i.text.toList ++ '\n' :: s.toList = j.text.toList ++ '\n' :: t.toList := by
    simpa using congrArg String.toList h
  obtain ⟨htext, hrest⟩ := eq_of_append_cons_eq (hbreak i) (hbreak j) hchars
  exact ⟨Instruction.text_injective (String.toList_inj.mp htext), String.toList_inj.mp hrest⟩

theorem listingLine_append_ne (place : Nat) (i : Instruction) (s : String) :
    listingLine place i ++ s ≠ "" := by
  simp [listingLine]

/-- The lines of code that starts at a place tell the code. -/
theorem eq_of_join_listingLine {code code' : List Instruction} {place : Nat}
    (h : String.join ((code.zipIdx place).map fun (i, place) => listingLine place i) =
      String.join ((code'.zipIdx place).map fun (i, place) => listingLine place i)) :
    code = code' := by
  induction code generalizing code' place with
  | nil =>
      rcases code' with _ | ⟨j, code'⟩
      · rfl
      · rw [List.zipIdx_cons, List.map_cons, String.join_cons] at h
        exact absurd h.symm (listingLine_append_ne place j _)
  | cons i code ih =>
      rcases code' with _ | ⟨j, code'⟩
      · rw [List.zipIdx_cons, List.map_cons, String.join_cons] at h
        exact absurd h (listingLine_append_ne place i _)
      · rw [List.zipIdx_cons, List.zipIdx_cons, List.map_cons, List.map_cons, String.join_cons,
          String.join_cons] at h
        obtain ⟨rfl, hrest⟩ := listingLine_append_inj h
        rw [ih hrest]

theorem listing_injective {code code' : List Instruction} (h : listing code = listing code') :
    code = code' :=
  eq_of_join_listingLine h

namespace Program

/-- The outline is read off the code, where the offsets of jumps do not matter. -/
theorem map_part_code (p : Program) : p.code.map Instruction.part = p.outline Command.action := by
  induction p using Program.induction with
  | nil => rfl
  | command c rest ih =>
      rw [code_cons, Node.code_command, List.map_append, ih, outline_command]
      rfl
  | loop id body rest ihBody ih =>
      rw [code_cons, Node.code_loop, List.map_append, ih, outline_loop, ← ihBody]
      simp [loopCode, Instruction.part]

theorem code_eq_iff_sameTree {p q : Program} :
    p.code = q.code ↔ p.SameTree (fun c d => c.action = d.action) q := by
  constructor
  · intro h
    rw [← outline_eq_iff, ← map_part_code, ← map_part_code, h]
  · intro h
    induction h with
    | nil => rfl
    | command hc _ ih => rw [code_cons, code_cons, Node.code_command, Node.code_command, hc, ih]
    | loop _ _ ihBody ih => rw [code_cons, code_cons, Node.code_loop, Node.code_loop, ihBody, ih]

end Program

/-- The amount of a command has 32 bits. -/
def Command.AmountFits : Command → Prop
  | move amount => FitsInt32 amount
  | add amount => FitsInt32 amount
  | _ => True

instance (c : Command) : Decidable c.AmountFits :=
  match c with
  | .move amount => inferInstanceAs (Decidable (FitsInt32 amount))
  | .add amount => inferInstanceAs (Decidable (FitsInt32 amount))
  | .clear | .print | .read => .isTrue trivial

def Node.AmountsFit : Node → Prop
  | command c => c.AmountFits
  | loop _ body => ∀ n ∈ body, n.AmountsFit

/-- The amounts of a program have 32 bits, at any depth. -/
def Program.AmountsFit (p : Program) : Prop :=
  ∀ n ∈ p, n.AmountsFit

theorem FitsInt32.toInt_ofInt {amount : Int} (h : FitsInt32 amount) :
    (Int64.ofInt amount).toInt = amount := by
  have hmin : Int32.minValue.toInt = -2147483648 := by decide
  have hmax : Int32.maxValue.toInt = 2147483647 := by decide
  rw [FitsInt32, hmin, hmax] at h
  exact Int64.toInt_ofInt_of_le (by omega) (by omega)

/-- What flat code keeps of a command: all of it, but amounts that are added modulo 256. -/
theorem Command.action_eq_iff {c d : Command} (hc : c.AmountFits) (hd : d.AmountFits) :
    c.action = d.action ↔ c.SameByte d := by
  cases c <;> cases d <;> simp only [action, SameByte, residue, reduceCtorEq]
  case move.move a b =>
    rw [Action.shift.injEq, Command.move.injEq, ← Int64.toInt_inj, FitsInt32.toInt_ofInt hc,
      FitsInt32.toInt_ofInt hd]
  case add.add a b => rw [Action.add.injEq, Command.add.injEq, stepByte_eq_iff]

namespace Program

theorem amountsFit_nil : AmountsFit [] :=
  List.forall_mem_nil _

theorem amountsFit_command {c : Command} {rest : Program} :
    AmountsFit (.command c :: rest) ↔ c.AmountFits ∧ AmountsFit rest := by
  rw [AmountsFit, List.forall_mem_cons, Node.AmountsFit]
  rfl

theorem amountsFit_loop {id : Nat} {body rest : Program} :
    AmountsFit (.loop id body :: rest) ↔ AmountsFit body ∧ AmountsFit rest := by
  rw [AmountsFit, List.forall_mem_cons, Node.AmountsFit]
  rfl

theorem SameTree.imp_of_amountsFit {same same' : Command → Command → Prop}
    (himp : ∀ {c d : Command}, c.AmountFits → d.AmountFits → same c d → same' c d)
    {p q : Program} (hp : p.AmountsFit) (hq : q.AmountsFit) (h : p.SameTree same q) :
    p.SameTree same' q := by
  induction h with
  | nil => exact .nil
  | command hc _ ih =>
      obtain ⟨hcommand, hrest⟩ := amountsFit_command.mp hp
      obtain ⟨hcommand', hrest'⟩ := amountsFit_command.mp hq
      exact .command (himp hcommand hcommand' hc) (ih hrest hrest')
  | loop _ _ ihBody ih =>
      obtain ⟨hbody, hrest⟩ := amountsFit_loop.mp hp
      obtain ⟨hbody', hrest'⟩ := amountsFit_loop.mp hq
      exact .loop (ihBody hbody hbody') (ih hrest hrest')

theorem sameTree_action_iff {p q : Program} (hp : p.AmountsFit) (hq : q.AmountsFit) :
    p.SameTree (fun c d => c.action = d.action) q ↔
      p.SameTree Command.SameByte q :=
  ⟨.imp_of_amountsFit (fun hc hd => (Command.action_eq_iff hc hd).mp) hp hq,
    .imp_of_amountsFit (fun hc hd => (Command.action_eq_iff hc hd).mpr) hp hq⟩

/-- Of programs with amounts of 32 bits, the listings are equal exactly if the codes are, and
the codes are equal exactly if the programs are the same tree up to the ids of loops and up
to amounts that are added, which count modulo 256. -/
theorem listing_code_eq_iff {p q : Program} (hp : p.AmountsFit) (hq : q.AmountsFit) :
    (listing p.code = listing q.code ↔ p.code = q.code) ∧
      (p.code = q.code ↔ p.SameTree Command.SameByte q) :=
  ⟨⟨listing_injective, congrArg listing⟩,
    code_eq_iff_sameTree.trans (sameTree_action_iff hp hq)⟩

/-- Ids and multiples of 256 are not seen in a listing. Where an empty loop ends is. -/
theorem listing_code_eq_iff_empty_loop :
    let p : Program :=
      [.command .read, .loop 0 [.command (.add (-1)), .command (.move (-2147483648))], .loop 1 []]
    let q : Program :=
      [.command .read, .loop 7 [.command (.add 511), .command (.move (-2147483648))], .loop 7 []]
    let r : Program :=
      [.command .read, .loop 0 [.command (.add (-1)), .command (.move (-2147483648)), .loop 1 []]]
    p.AmountsFit ∧ q.AmountsFit ∧ r.AmountsFit ∧
      listing p.code = listing q.code ∧ listing p.code ≠ listing r.code := by
  intro p q r
  have hp : p.AmountsFit := by
    simp only [p, amountsFit_command, amountsFit_loop, amountsFit_nil]
    decide
  have hq : q.AmountsFit := by
    simp only [q, amountsFit_command, amountsFit_loop, amountsFit_nil]
    decide
  have hr : r.AmountsFit := by
    simp only [r, amountsFit_command, amountsFit_loop, amountsFit_nil]
    decide
  obtain ⟨hlisting, hcode⟩ := listing_code_eq_iff hp hq
  obtain ⟨hlisting', hcode'⟩ := listing_code_eq_iff hp hr
  refine ⟨hp, hq, hr, hlisting.mpr (hcode.mpr ?_), fun h => ?_⟩
  · exact .command rfl (.loop (.command rfl (.command rfl .nil)) (.loop .nil .nil))
  · have hsame := hcode'.mp (hlisting'.mp h)
    simp only [p, r] at hsame
    cases hsame with
    | command _ hloops =>
        cases hloops with
        | loop _ hrest => cases hrest

end Program

end TapeCompiler
