import Backpatch.Program
import Mathlib.Data.List.TakeWhile

/-!
# Listings can be read back

A line of a listing is an address and a mnemonic, and then an operand, a note, both or neither.
`Instruction.ofLine?` reads them off one after the other. Address, mnemonic and operand have no blank in
them, so each ends at the next blank; what follows the mnemonic is an operand if a digit comes after the
blank, and otherwise a note. The note is last and goes on to the end of the line, so nothing that stands in
it can be taken for another part. A line thus reads back as its instruction (`Instruction.ofLine?_text`),
and, as long as no note has a line feed in it, a listing as its code (`Program.ofListing?_listing`).
-/

namespace Backpatch

namespace Instruction

/-! ## Reading a line -/

/-- The number that a text begins with, and what is behind it. -/
def readNat (cs : List Char) : Nat × List Char :=
  (Nat.ofDigitChars 10 (cs.takeWhile Char.isDigit) 0, cs.dropWhile Char.isDigit)

/-- The operand behind a mnemonic, if there is one, and what is behind it. -/
def readOperand (cs : List Char) : Option Nat × List Char :=
  if cs.tail.head?.any Char.isDigit then
    (some (readNat cs.tail).1, (readNat cs.tail).2)
  else
    (none, cs)

/-- The note that ends a line, if there is one. -/
def readDisplay : List Char → Option String
  | ' ' :: '(' :: cs => some (String.ofList cs.dropLast)
  | _ => none

/-- The instruction of a line, if its mnemonic is one. -/
def ofLine? (line : List Char) : Option Instruction :=
  let (address, afterAddress) := readNat (line.dropWhile (· == ' '))
  let mnemonic := afterAddress.tail.takeWhile (· != ' ')
  let (operand, afterOperand) := readOperand (afterAddress.tail.dropWhile (· != ' '))
  (Opcode.ofMnemonic? (String.ofList mnemonic)).map
    (⟨address, ·, operand, readDisplay afterOperand⟩)

/-- A word ends at the first character that cannot be in it. -/
theorem takeWhile_dropWhile_word {p : Char → Bool} {word rest : List Char}
    (hword : ∀ c ∈ word, p c = true) (hrest : ∀ c ∈ rest.head?, p c = false) :
    (word ++ rest).takeWhile p = word ∧ (word ++ rest).dropWhile p = rest := by
  rw [List.takeWhile_append_of_pos hword, List.dropWhile_append_of_pos hword]
  cases rest with
  | nil => exact ⟨List.append_nil _, rfl⟩
  | cons c cs =>
    have hc : ¬ p c = true := Bool.eq_false_iff.mp (hrest c rfl)
    rw [List.takeWhile_cons_of_neg hc, List.dropWhile_cons_of_neg hc, List.append_nil]
    exact ⟨rfl, rfl⟩

/-- Digits read as the number that they write. -/
theorem readNat_natDigits (n : Nat) {rest : List Char} (h : ∀ c ∈ rest.head?, c.isDigit = false) :
    readNat (Decimal.natDigits n ++ rest) = (n, rest) := by
  obtain ⟨htake, hdrop⟩ := takeWhile_dropWhile_word (fun c => Decimal.isDigit_of_mem_natDigits) h
  unfold readNat
  rw [htake, hdrop]
  exact congrArg (·, rest) Nat.ofDigitChars_ten_toDigits

/-! ## The parts of a line -/

/-- An operand is set off by a blank. -/
theorem toList_operandText_some (n : Nat) :
    (operandText (some n)).toList = ' ' :: Decimal.natDigits n := by
  unfold operandText
  rw [String.toList_append, Nat.toString_eq_ofList_toDigits]
  exact congrArg (' ' :: ·) String.toList_ofList

/-- A note is set off by a blank and stands in parentheses. -/
theorem toList_displayText_some (s : String) :
    (displayText (some s)).toList = ' ' :: '(' :: (s.toList ++ [')']) := by
  unfold displayText
  rw [String.toList_append, String.toList_append]
  rfl

/-- A note, if there is one, is set off by a blank. -/
theorem head_displayText (display : Option String) :
    ∀ c ∈ (displayText display).toList.head?, c = ' ' := by
  intro c hc
  cases display with
  | none => cases hc
  | some s =>
    rw [toList_displayText_some] at hc
    exact (Option.some.inj hc).symm

/-- So is all that follows the mnemonic. -/
theorem head_operandText_append (operand : Option Nat) (display : Option String) :
    ∀ c ∈ ((operandText operand).toList ++ (displayText display).toList).head?, c = ' ' := by
  intro c hc
  cases operand with
  | none => exact head_displayText display c hc
  | some n =>
    rw [toList_operandText_some] at hc
    exact (Option.some.inj hc).symm

/-- A mnemonic is a single word. -/
theorem mem_mnemonic {op : Opcode} {c : Char} (h : c ∈ op.mnemonic.toList) : c ≠ ' ' ∧ c ≠ '\n' := by
  have hall : op.mnemonic.toList.all (fun c => c != ' ' && c != '\n') = true := by
    cases op <;> decide
  have hc := List.all_eq_true.mp hall c h
  rwa [Bool.and_eq_true, bne_iff_ne, bne_iff_ne] at hc

/-- The note goes on to the last parenthesis, whatever is in it. -/
theorem readDisplay_displayText (display : Option String) :
    readDisplay (displayText display).toList = display := by
  cases display with
  | none => rfl
  | some s =>
    rw [toList_displayText_some]
    show some (String.ofList (s.toList ++ [')']).dropLast) = some s
    rw [List.dropLast_concat, String.ofList_toList]

/-- The operand goes on to its last digit, and without one there is no digit behind the blank. -/
theorem readOperand_operandText (operand : Option Nat) (display : Option String) :
    readOperand ((operandText operand).toList ++ (displayText display).toList) =
      (operand, (displayText display).toList) := by
  cases operand with
  | some n =>
    have hrest : ∀ c ∈ (displayText display).toList.head?, c.isDigit = false := by
      intro c hc
      rw [head_displayText display c hc]
      rfl
    obtain ⟨d, ds, hcons, hd⟩ := Decimal.exists_natDigits_eq_cons n
    have hdigit : (Decimal.natDigits n ++ (displayText display).toList).head?.any Char.isDigit = true := by
      rw [hcons]
      exact hd
    unfold readOperand
    rw [toList_operandText_some, List.cons_append, List.tail_cons, if_pos hdigit,
      readNat_natDigits n hrest]
  | none =>
    -- What comes after the blank of a note is a parenthesis, and that is no digit.
    cases display with
    | none => rfl
    | some s =>
      show readOperand (displayText (some s)).toList = _
      rw [toList_displayText_some]
      rfl

/-- A line is the column of the address and the parts behind it, with a blank before the mnemonic. -/
theorem toList_text (i : Instruction) :
    i.text.toList =
      List.replicate (4 - (Decimal.natDigits i.address).length) ' ' ++ (Decimal.natDigits i.address ++
        ' ' :: (i.opcode.mnemonic.toList ++
          ((operandText i.operand).toList ++ (displayText i.display).toList))) := by
  unfold text addressColumn
  simp only [String.toList_append, String.toList_ofList, List.leftpad, List.append_assoc]
  rfl

/-- A line reads back as its instruction. -/
theorem ofLine?_text (i : Instruction) : ofLine? i.text.toList = some i := by
  generalize hrest : (operandText i.operand).toList ++ (displayText i.display).toList = rest
  -- The blanks that fill the column go up to the first digit of the address.
  have hblanks : i.text.toList.dropWhile (· == ' ') =
      Decimal.natDigits i.address ++ ' ' :: (i.opcode.mnemonic.toList ++ rest) := by
    rw [toList_text, hrest]
    refine (takeWhile_dropWhile_word (fun c hc => ?_) fun c hc => ?_).2
    · rw [List.eq_of_mem_replicate hc]
      rfl
    · obtain ⟨d, ds, hcons, hd⟩ := Decimal.exists_natDigits_eq_cons i.address
      rw [hcons] at hc
      obtain rfl : d = c := Option.some.inj hc
      rw [beq_eq_false_iff_ne]
      rintro rfl
      cases hd
  have haddress : readNat (i.text.toList.dropWhile (· == ' ')) =
      (i.address, ' ' :: (i.opcode.mnemonic.toList ++ rest)) := by
    rw [hblanks]
    refine readNat_natDigits i.address fun c hc => ?_
    obtain rfl : ' ' = c := Option.some.inj hc
    rfl
  obtain ⟨htake, hdrop⟩ : (i.opcode.mnemonic.toList ++ rest).takeWhile (· != ' ') =
        i.opcode.mnemonic.toList ∧
      (i.opcode.mnemonic.toList ++ rest).dropWhile (· != ' ') = rest := by
    refine takeWhile_dropWhile_word (fun c hc => bne_iff_ne.mpr (mem_mnemonic hc).1) fun c hc => ?_
    rw [← hrest] at hc
    rw [head_operandText_append _ _ c hc]
    rfl
  have hoperand : readOperand rest = (i.operand, (displayText i.display).toList) := by
    rw [← hrest]
    exact readOperand_operandText i.operand i.display
  unfold ofLine?
  simp only [haddress, List.tail_cons, htake, hdrop, hoperand, readDisplay_displayText,
    String.ofList_toList, Opcode.ofMnemonic?_mnemonic, Option.map_some]

/-- Only a note can have a line feed in it. -/
theorem lineFeed_notMem_text {i : Instruction} (h : ∀ note ∈ i.display, '\n' ∉ note.toList) :
    '\n' ∉ i.text.toList := by
  have hdigits (n : Nat) : '\n' ∉ Decimal.natDigits n := fun hmem => by
    cases Decimal.isDigit_of_mem_natDigits hmem
  have hoperand : '\n' ∉ (operandText i.operand).toList := by
    cases i.operand with
    | none => exact List.not_mem_nil
    | some n =>
      rw [toList_operandText_some, List.mem_cons, not_or]
      exact ⟨by decide, hdigits n⟩
  have hdisplay : '\n' ∉ (displayText i.display).toList := by
    cases hnote : i.display with
    | none => exact List.not_mem_nil
    | some note =>
      have hno := h note hnote
      rw [toList_displayText_some]
      simp [hno]
  have hmnemonic : '\n' ∉ i.opcode.mnemonic.toList := fun hmem => (mem_mnemonic hmem).2 rfl
  rw [toList_text]
  simp [hdigits, hmnemonic, hoperand, hdisplay]

end Instruction

/-! ## Reading a listing -/

namespace Program

/-- No note goes over more than one line. -/
def SingleLineNotes (p : Program) : Prop :=
  ∀ i ∈ p.code, ∀ note ∈ i.display, '\n' ∉ note.toList

/-- It can be decided whether some note goes over more than one line. -/
instance (p : Program) : Decidable p.SingleLineNotes :=
  inferInstanceAs (Decidable (∀ i ∈ p.code, ∀ note ∈ i.display, '\n' ∉ note.toList))

/-- The instructions of a listing, if each of its lines is one. -/
def ofListing? (listing : String) : Option (List Instruction) :=
  (listing.toList.splitOn '\n').dropLast.mapM Instruction.ofLine?

/-- A listing ends each of its lines by a line feed, and has no others. -/
theorem splitOn_listing {p : Program} (h : p.SingleLineNotes) :
    p.listing.toList.splitOn '\n' = (p.code.toList.map fun i => i.text.toList) ++ [[]] := by
  have hlines : ∀ i ∈ p.code.toList, '\n' ∉ i.text.toList := fun i hi =>
    Instruction.lineFeed_notMem_text (h i (Array.mem_toList_iff.mp hi))
  unfold listing
  -- By induction on the code: the first line feed is the one that ends the first line.
  generalize p.code.toList = code at hlines
  induction code with
  | nil => exact List.splitOn_nil _
  | cons i is ih =>
    obtain ⟨hline, hlines⟩ := List.forall_mem_cons.mp hlines
    have hcons : (String.join ((i :: is).map fun i => i.text ++ "\n")).toList =
        i.text.toList ++ '\n' :: (String.join (is.map fun i => i.text ++ "\n")).toList := by
      simp [String.toList_join]
    rw [hcons, List.splitOn_append_cons_self_of_not_mem hline, ih hlines]
    rfl

/-- A listing reads back as its code. -/
theorem ofListing?_listing {p : Program} (h : p.SingleLineNotes) :
    ofListing? p.listing = some p.code.toList := by
  unfold ofListing?
  rw [splitOn_listing h, List.dropLast_concat]
  induction p.code.toList with
  | nil => rfl
  | cons i is ih =>
    rw [List.map_cons, List.mapM_cons, Instruction.ofLine?_text, ih]
    rfl

/-- Nothing is lost in a listing whose notes have no line feed in them, whatever else they have in them: no
other code has the same listing, and each of its lines is that of one instruction. -/
theorem listing_loses_nothing (p : Program) (hp : p.SingleLineNotes) :
    (∀ q : Program, q.SingleLineNotes → q.listing = p.listing → q.code = p.code) ∧
      p.listing.toList.splitOn '\n' = (p.code.toList.map fun i => i.text.toList) ++ [[]] := by
  refine ⟨fun q hq hlisting => ?_, splitOn_listing hp⟩
  have hread : some q.code.toList = some p.code.toList :=
    calc some q.code.toList
      _ = ofListing? q.listing := (ofListing?_listing hq).symm
      _ = ofListing? p.listing := congrArg ofListing? hlisting
      _ = some p.code.toList := ofListing?_listing hp
  exact Array.toList_inj.mp (Option.some.inj hread)

/-- An operand with a note and a note that looks like both make different listings, the first of which has
two lines and the empty rest behind them; what is not code, such as the names, makes no difference. -/
theorem listing_loses_nothing_lookalikes :
    ∃ p q r : Program,
      p.code = #[⟨12345, .call, some 7, some "x"⟩, ⟨8, .jump, none, none⟩] ∧
      q.code = #[⟨12345, .call, none, some "7) (x"⟩, ⟨8, .jump, none, none⟩] ∧
      p.SingleLineNotes ∧ q.SingleLineNotes ∧ r.SingleLineNotes ∧
      q.listing ≠ p.listing ∧ (p.listing.toList.splitOn '\n').length = 3 ∧
      r ≠ p ∧ r.listing = p.listing ∧ r.code = p.code := by
  let p : Program := ⟨#[⟨12345, .call, some 7, some "x"⟩, ⟨8, .jump, none, none⟩], [], []⟩
  let q : Program := ⟨#[⟨12345, .call, none, some "7) (x"⟩, ⟨8, .jump, none, none⟩], [], []⟩
  let r : Program := { p with names := ["f"] }
  have hp : p.SingleLineNotes := by decide
  have hq : q.SingleLineNotes := by decide
  have hr : r.SingleLineNotes := by decide
  obtain ⟨hcode, hlines⟩ := listing_loses_nothing p hp
  refine ⟨p, q, r, rfl, rfl, hp, hq, hr, fun hlisting => ?_, ?_, by decide, rfl, hcode r hr rfl⟩
  · have hsame : q.code = p.code := hcode q hq hlisting
    revert hsame
    decide
  · rw [hlines]
    rfl

end Program

end Backpatch
