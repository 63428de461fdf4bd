import ExprTree.ParseError
import ExprTree.Proofs.Text.Split
import ExprTree.Text.Alphabet
import ExprTree.Text.Balance
import Mathlib.Algebra.Order.Ring.Nat

/-!
# Texts as bytes

A text is looked at byte by byte and cut at byte positions, and depths are counted in machine
words. Each of these steps can go wrong, and then nothing sensible can follow: a counter leaves
its word, or a cut falls outside of the text, ends before it starts or parts the bytes of a
character. On a text of ASCII characters that is not too long none of this happens, and the
scans find what the scans of characters find.
-/

namespace ExprTree

/-- Why reading in bytes and words stops without an expression. -/
inductive Stop where
  | rejected (error : ParseError)
  /-- A number leaves its machine word. -/
  | overflow
  /-- A text is cut where it cannot be. -/
  | badSlice
  /-- A call is made on a text that is no shorter. -/
  | notShorter
  | fault (fault : Fault)
  deriving DecidableEq

namespace Bytewise

/-! ## Words of 64 bits -/

/-- One more than an unsigned word. -/
def increment (n : Nat) : Except Stop Nat :=
  if n + 1 < 2 ^ 64 then .ok (n + 1) else .error .overflow

/-- One less than an unsigned word. -/
def decrement (n : Nat) : Except Stop Nat :=
  if 0 < n then .ok (n - 1) else .error .overflow

/-- The sum of two signed words. -/
def addSigned (n change : Int) : Except Stop Int :=
  if -2 ^ 63 ≤ n + change ∧ n + change < 2 ^ 63 then .ok (n + change) else .error .overflow

theorem increment_of_lt {n : Nat} (h : n + 1 < 2 ^ 64) : increment n = .ok (n + 1) :=
  if_pos h

theorem decrement_of_pos {n : Nat} (h : 0 < n) : decrement n = .ok (n - 1) :=
  if_pos h

theorem addSigned_of_mem {n change : Int} (h : -2 ^ 63 ≤ n + change) (h' : n + change < 2 ^ 63) :
    addSigned n change = .ok (n + change) :=
  if_pos ⟨h, h'⟩

/-! ## Cuts -/

def bytes (s : String) : List UInt8 :=
  s.toByteArray.data.toList

/-- The text from one byte position to another. Both have to be in the text and between two
characters, and the first must not be behind the second. -/
def slice (s : String) (start stop : Nat) : Except Stop String :=
  if h : start ≤ stop ∧ String.Pos.Raw.IsValid s ⟨start⟩ ∧ String.Pos.Raw.IsValid s ⟨stop⟩ then
    .ok (s.extract (s.pos ⟨start⟩ h.2.1) (s.pos ⟨stop⟩ h.2.2))
  else
    .error .badSlice

theorem slice_append (before part after : String) :
    slice (before ++ part ++ after) before.utf8ByteSize
      (before.utf8ByteSize + part.utf8ByteSize) = .ok part := by
  have hstart : String.Pos.Raw.IsValid (before ++ part ++ after) ⟨before.utf8ByteSize⟩ :=
    String.Pos.Raw.isValid_iff_exists_append.mpr
      ⟨before, part ++ after, String.append_assoc, rfl⟩
  have hstop : String.Pos.Raw.IsValid (before ++ part ++ after)
      ⟨before.utf8ByteSize + part.utf8ByteSize⟩ :=
    String.Pos.Raw.isValid_iff_exists_append.mpr
      ⟨before ++ part, after, rfl, by simp [String.Pos.Raw.ext_iff]⟩
  have hbytes : (before.toByteArray ++ (part.toByteArray ++ after.toByteArray)).extract
      before.toByteArray.size (before.toByteArray.size + part.toByteArray.size) =
      part.toByteArray := by
    have hshift := ByteArray.extract_append_size_add (a := before.toByteArray)
      (b := part.toByteArray ++ after.toByteArray) (i := 0) (j := part.toByteArray.size)
    rw [Nat.add_zero, ByteArray.extract_append_eq_left rfl] at hshift
    exact hshift
  rw [slice, dif_pos ⟨Nat.le_add_right _ _, hstart, hstop⟩, Except.ok.injEq,
    ← String.toByteArray_inj, String.toByteArray_extract]
  simpa [String.append_assoc, ← String.size_toByteArray] using hbytes

/-- No cut is inside of a character, and none ends before it starts. -/
example : slice "x\u2003" 0 2 = .error .badSlice ∧ slice "x\u2003" 4 1 = .error .badSlice := by
  decide

/-! ## ASCII texts -/

/-- Every character is a single byte. -/
def IsAscii (s : List Char) : Prop :=
  ∀ c ∈ s, c.toNat < 128

theorem isAscii_cons {c : Char} {s : List Char} : IsAscii (c :: s) ↔ c.toNat < 128 ∧ IsAscii s :=
  List.forall_mem_cons

theorem IsAscii.of_subset {s t : List Char} (h : IsAscii s) (hsubset : t ⊆ s) : IsAscii t :=
  fun c hc => h c (hsubset hc)

theorem isLower_eq (c : Char) :
    c.isLower = (decide ('a'.val ≤ c.val) && decide (c.val ≤ 'z'.val)) := rfl

/-- What the alphabet leaves when the blanks are taken out is ASCII. -/
theorem isAscii_withoutBlanks {text : List Char} (h : ∀ c ∈ text, isAllowed c = true) :
    IsAscii (withoutBlanks text) := by
  intro c hc
  obtain ⟨hmem, hblank⟩ := List.mem_filter.mp hc
  have hallowed := h c hmem
  simp only [isAllowed, isLiteralChar, Char.isDigit, isLower_eq, Bool.or_eq_true, beq_iff_eq,
    Bool.and_eq_true, decide_eq_true_eq] at hallowed
  simp only [Bool.not_eq_true'] at hblank
  rcases hallowed with ((((hb | hd | hl) | rfl) | rfl) | rfl) | rfl
  · rw [hblank] at hb
    cases hb
  · exact Nat.lt_of_le_of_lt (UInt32.le_iff_toNat_le.mp hd.2) (by decide)
  · exact Nat.lt_of_le_of_lt (UInt32.le_iff_toNat_le.mp hl.2) (by decide)
  all_goals decide

theorem utf8EncodeChar_eq {c : Char} (hc : c.toNat < 128) :
    String.utf8EncodeChar c = [c.toUInt8] := by
  have hsize : c.utf8Size = 1 := by
    rw [Char.utf8Size_eq_one_iff, UInt32.le_iff_toNat_le]
    exact Nat.le_of_lt_succ hc
  rw [String.utf8EncodeChar_eq_singleton hsize, Char.toUInt8_val]

theorem bytes_eq_flatMap (s : List Char) :
    bytes (String.ofList s) = s.flatMap String.utf8EncodeChar := by
  rw [bytes, String.toByteArray_ofList, List.utf8Encode]
  simp

theorem bytes_ofList {s : List Char} (h : IsAscii s) :
    bytes (String.ofList s) = s.map Char.toUInt8 := by
  rw [bytes_eq_flatMap]
  induction s with
  | nil => rfl
  | cons c s ih =>
    obtain ⟨hc, hs⟩ := isAscii_cons.mp h
    rw [List.flatMap_cons, utf8EncodeChar_eq hc, ih hs]
    rfl

theorem utf8ByteSize_ofList {s : List Char} (h : IsAscii s) :
    (String.ofList s).utf8ByteSize = s.length := by
  rw [← String.size_toByteArray]
  change (bytes (String.ofList s)).length = s.length
  rw [bytes_ofList h, List.length_map]

theorem toNat_toUInt8 {c : Char} (hc : c.toNat < 128) : c.toUInt8.toNat = c.toNat := by
  rw [Char.toUInt8, UInt32.toNat_toUInt8, Char.toNat_val]
  omega

/-! A byte may be read as the character that has its number. -/

theorem toUInt8_ofUInt8 (b : UInt8) : (Char.ofUInt8 b).toUInt8 = b :=
  UInt8.toUInt8_toUInt32 b

theorem toNat_ofUInt8 (b : UInt8) : (Char.ofUInt8 b).toNat = b.toNat :=
  UInt8.toNat_toUInt32 b

theorem ofUInt8_toUInt8 {c : Char} (hc : c.toNat < 128) : Char.ofUInt8 c.toUInt8 = c :=
  Char.toNat_inj.mp ((toNat_ofUInt8 _).trans (toNat_toUInt8 hc))

theorem eq_toUInt8_iff {b : UInt8} {c : Char} (hc : c.toNat < 128) :
    b = c.toUInt8 ↔ Char.ofUInt8 b = c :=
  ⟨fun h => h ▸ ofUInt8_toUInt8 hc, fun h => h ▸ (toUInt8_ofUInt8 b).symm⟩

/-- Distinct characters are distinct bytes. -/
theorem toUInt8_ne {c d : Char} (hc : c.toNat < 128) (hd : d.toNat < 128) (h : c ≠ d) :
    c.toUInt8 ≠ d.toUInt8 := fun hbytes =>
  h ((ofUInt8_toUInt8 hc).symm.trans ((eq_toUInt8_iff hd).mp hbytes))

/-- In an ASCII text, byte positions are positions of characters. -/
theorem slice_ofList {s : List Char} (h : IsAscii s) {start stop : Nat} (hle : start ≤ stop)
    (hstop : stop ≤ s.length) :
    slice (String.ofList s) start stop = .ok (String.ofList ((s.take stop).drop start)) := by
  have hsplit : s = s.take start ++ (s.take stop).drop start ++ s.drop stop := by
    conv => lhs; rw [← List.take_append_drop stop s, ← List.take_append_drop start (s.take stop)]
    rw [List.take_take, Nat.min_eq_left hle]
  have hbefore : (String.ofList (s.take start)).utf8ByteSize = start := by
    rw [utf8ByteSize_ofList (h.of_subset (List.take_subset start s)), List.length_take]
    omega
  have hpart : (String.ofList ((s.take stop).drop start)).utf8ByteSize = stop - start := by
    have hascii : IsAscii ((s.take stop).drop start) :=
      h.of_subset fun c hc => List.take_subset _ _ (List.drop_subset _ _ hc)
    rw [utf8ByteSize_ofList hascii, List.length_drop, List.length_take]
    omega
  have hslice := slice_append (String.ofList (s.take start))
    (String.ofList ((s.take stop).drop start)) (String.ofList (s.drop stop))
  rw [← String.ofList_append, ← String.ofList_append, ← hsplit, hbefore, hpart,
    Nat.add_sub_cancel' hle] at hslice
  exact hslice

/-! ## Scans -/

/-- Refuses a text with parentheses that have no partner. The open ones are counted in a word. -/
def checkBalance (input : String) : Nat → List UInt8 → Except Stop Unit
  | depth, [] => if depth = 0 then .ok () else .error (.rejected (.unbalancedParentheses input))
  | depth, b :: rest =>
    if b = '('.toUInt8 then do
      checkBalance input (← increment depth) rest
    else if b = ')'.toUInt8 then
      if depth = 0 then
        .error (.rejected (.unbalancedParentheses input))
      else
        checkBalance input (depth - 1) rest
    else
      checkBalance input depth rest

/-- Whether the first of the open parentheses is closed by the last byte of so many. -/
def closesAtLast (length : Nat) : Nat → Nat → List UInt8 → Except Stop Bool
  | _, _, [] => .ok false
  | position, depth, b :: rest =>
    if b = '('.toUInt8 then do
      closesAtLast length (position + 1) (← increment depth) rest
    else if b = ')'.toUInt8 then
      if depth - 1 = 0 then do
        return position == (← decrement length)
      else
        closesAtLast length (position + 1) (depth - 1) rest
    else
      closesAtLast length (position + 1) depth rest

def wrapped (s : String) : Except Stop Bool :=
  if (bytes s).head? = some '('.toUInt8 then
    closesAtLast s.utf8ByteSize 0 0 (bytes s)
  else
    .ok false

/-- The pass for a place to split, with the depth in a signed word. -/
def splitStep (scan : Split.Scan) (b : UInt8) : Except Stop Split.Scan :=
  if b = '('.toUInt8 then do
    return { scan with depth := ← addSigned scan.depth 1 }.advance
  else if b = ')'.toUInt8 then do
    return { scan with depth := ← addSigned scan.depth (-1) }.advance
  else if b = '+'.toUInt8 then
    .ok (scan.see .add).advance
  else if b = '*'.toUInt8 then
    .ok (scan.see .multiply).advance
  else
    .ok scan.advance

def findSplit (s : String) : Except Stop (Option Split) := do
  let scan ← (bytes s).foldlM splitStep Split.Scan.start
  return scan.best.map fun (_, operator) => ⟨operator, scan.found.toList⟩

/-- A digit or a lowercase letter. -/
def isLiteralByte (b : UInt8) : Bool :=
  ('0'.toUInt8 ≤ b && b ≤ '9'.toUInt8) || ('a'.toUInt8 ≤ b && b ≤ 'z'.toUInt8)

section Scans

variable {s : List Char}

theorem checkBalance_eq (h : IsAscii s) (input : String) (depth : Nat)
    (hlength : depth + s.length < 2 ^ 64) :
    checkBalance input depth (s.map Char.toUInt8) =
      if balancesFrom depth s = true then .ok ()
      else .error (.rejected (.unbalancedParentheses input)) := by
  induction s generalizing depth with
  | nil => simp [checkBalance, balancesFrom]
  | cons c s ih =>
    obtain ⟨hc, hs⟩ := isAscii_cons.mp h
    rw [List.length_cons] at hlength
    rw [List.map_cons, checkBalance]
    by_cases hopen : c = '('
    · subst hopen
      rw [if_pos rfl, increment_of_lt (by omega), balancesFrom]
      exact ih hs (depth + 1) (by omega)
    · rw [if_neg (toUInt8_ne hc (by decide) hopen)]
      by_cases hclose : c = ')'
      · subst hclose
        cases depth with
        | zero => rfl
        | succ depth => exact ih hs depth (by omega)
      · rw [if_neg (toUInt8_ne hc (by decide) hclose), ih hs depth (by omega), balancesFrom]
        all_goals simp_all

theorem closesAtLast_eq (h : IsAscii s) {position depth length : Nat}
    (hposition : position + s.length = length) (hlength : depth + s.length < 2 ^ 64) :
    closesAtLast length position depth (s.map Char.toUInt8) = .ok (closesAtEnd depth s) := by
  induction s generalizing position depth with
  | nil => rfl
  | cons c s ih =>
    obtain ⟨hc, hs⟩ := isAscii_cons.mp h
    rw [List.length_cons] at hposition hlength
    rw [List.map_cons, closesAtLast]
    by_cases hopen : c = '('
    · subst hopen
      rw [if_pos rfl, increment_of_lt (by omega), closesAtEnd]
      exact ih hs (by omega) (by omega)
    · rw [if_neg (toUInt8_ne hc (by decide) hopen)]
      by_cases hclose : c = ')'
      · subst hclose
        rw [if_pos rfl, closesAtEnd]
        split
        · have hlast : (position == length - 1) = s.isEmpty := by
            rw [Bool.eq_iff_iff, beq_iff_eq, List.isEmpty_iff_length_eq_zero]
            omega
          rw [decrement_of_pos (by omega), ← hlast]
          rfl
        · exact ih hs (by omega) (by omega)
      · rw [if_neg (toUInt8_ne hc (by decide) hclose), ih hs (by omega) (by omega), closesAtEnd]
        all_goals simp_all

theorem wrapped_eq (h : IsAscii s) (hlength : s.length < 2 ^ 64) :
    wrapped (String.ofList s) = .ok (isWrapped s) := by
  rw [wrapped, bytes_ofList h, utf8ByteSize_ofList h]
  cases s with
  | nil => rfl
  | cons c s =>
    obtain ⟨hc, -⟩ := isAscii_cons.mp h
    by_cases hopen : c = '('
    · subst hopen
      rw [List.map_cons, List.head?_cons, if_pos rfl, ← List.map_cons,
        closesAtLast_eq h (Nat.zero_add _) (by omega)]
      rfl
    · rw [List.map_cons, List.head?_cons, if_neg, isWrapped]
      · simp_all
      · simpa using toUInt8_ne hc (by decide) hopen

/-- The pass goes on from a byte as from the character with its number. -/
theorem splitStep_eq (b : UInt8) {scan : Split.Scan} (hdepth : -2 ^ 63 ≤ scan.depth - 1)
    (hdepth' : scan.depth + 1 < 2 ^ 63) :
    splitStep scan b = .ok (scan.step (Char.ofUInt8 b)) := by
  unfold Split.Scan.step
  split
  · rename_i hopen
    obtain rfl := (eq_toUInt8_iff (by decide)).mpr hopen
    rw [splitStep, if_pos rfl, addSigned_of_mem (by omega) (by omega)]
    rfl
  · rename_i hclose
    obtain rfl := (eq_toUInt8_iff (by decide)).mpr hclose
    rw [splitStep, if_neg (by decide), if_pos rfl, addSigned_of_mem (by omega) (by omega)]
    rfl
  · rename_i hadd
    obtain rfl := (eq_toUInt8_iff (by decide)).mpr hadd
    rfl
  · rename_i hmultiply
    obtain rfl := (eq_toUInt8_iff (by decide)).mpr hmultiply
    rfl
  · rename_i hopen hclose hadd hmultiply
    rw [splitStep, if_neg (mt (eq_toUInt8_iff (by decide)).mp hopen),
      if_neg (mt (eq_toUInt8_iff (by decide)).mp hclose),
      if_neg (mt (eq_toUInt8_iff (by decide)).mp hadd),
      if_neg (mt (eq_toUInt8_iff (by decide)).mp hmultiply)]

/-- The depth moves by one at most with every character. -/
theorem depth_step (scan : Split.Scan) (c : Char) :
    scan.depth - 1 ≤ (scan.step c).depth ∧ (scan.step c).depth ≤ scan.depth + 1 := by
  have hsee : ∀ operator, (scan.see operator).depth = scan.depth := by
    intro operator
    unfold Split.Scan.see
    split
    · rfl
    · split <;> rfl
  unfold Split.Scan.step
  split <;> simp [Split.Scan.advance, hsee] <;> omega

theorem foldlM_splitStep {bs : List UInt8} {scan : Split.Scan}
    (hdepth : -2 ^ 63 ≤ scan.depth - bs.length) (hdepth' : scan.depth + bs.length < 2 ^ 63) :
    bs.foldlM splitStep scan = .ok ((bs.map Char.ofUInt8).foldl Split.Scan.step scan) := by
  induction bs generalizing scan with
  | nil => rfl
  | cons b bs ih =>
    obtain ⟨hlow, hhigh⟩ := depth_step scan (Char.ofUInt8 b)
    rw [List.length_cons] at hdepth hdepth'
    rw [List.foldlM_cons, splitStep_eq b (by omega) (by omega), List.map_cons, List.foldl_cons]
    exact ih (by omega) (by omega)

/-- A text that fits into memory is too short for its depths to leave their word. -/
theorem findSplit_eq_shallowest? {text : String} (hlength : text.utf8ByteSize < 2 ^ 63) :
    findSplit text = .ok (Split.shallowest? ((bytes text).map Char.ofUInt8)) := by
  have hstart : Split.Scan.start.depth = 0 := rfl
  have hbytes : (bytes text).length = text.utf8ByteSize := rfl
  rw [findSplit, foldlM_splitStep (by omega) (by omega)]
  rfl

theorem findSplit_eq (h : IsAscii s) (hlength : s.length < 2 ^ 63) :
    findSplit (String.ofList s) = .ok (Split.shallowest? s) := by
  have hchars : (s.map Char.toUInt8).map Char.ofUInt8 = s := by
    rw [List.map_map]
    exact (List.map_congr_left fun c hc => ofUInt8_toUInt8 (h c hc)).trans (List.map_id s)
  rw [findSplit_eq_shallowest? (by rwa [utf8ByteSize_ofList h]), bytes_ofList h, hchars]

theorem isLiteralByte_eq {c : Char} (hc : c.toNat < 128) :
    isLiteralByte c.toUInt8 = isLiteralChar c := by
  rw [Bool.eq_iff_iff]
  simp only [isLiteralByte, isLiteralChar, Char.isDigit, isLower_eq, Bool.or_eq_true,
    Bool.and_eq_true, decide_eq_true_eq, UInt8.le_iff_toNat_le, UInt32.le_iff_toNat_le,
    toNat_toUInt8 hc, Char.toNat_val]
  rfl

theorem any_isLiteralByte (h : IsAscii s) :
    (bytes (String.ofList s)).any isLiteralByte = s.any isLiteralChar := by
  rw [bytes_ofList h, List.any_map, Bool.eq_iff_iff, List.any_eq_true, List.any_eq_true]
  refine exists_congr fun c => and_congr_right fun hc => ?_
  rw [Function.comp_apply, isLiteralByte_eq (h c hc)]

end Scans

end Bytewise
end ExprTree
