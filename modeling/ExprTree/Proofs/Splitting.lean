import ExprTree.Proofs.Bytewise.Text
import Mathlib.Data.List.Count

/-!
# Where a text is split

What the pass for a place to split has to find can be said without a pass, position by
position: the least depth of all operators, a sum if one stands there, and then every position
of that operator at that depth. It can be said of a text in characters and of the same text in
bytes. The bytes of a character beyond ASCII are no signs, so that both have the same operators
at the same depths, only counted in another way.
-/

namespace ExprTree

open Bytewise

/-! ## Positions -/

section Positions

variable {α : Type} [DecidableEq α] (code : Char → α) (text : List α)

/-- What is opened before the position less what is closed before it. The text is a list of
characters or of bytes, and `code` writes a sign as one of these. -/
def depthAt (i : Nat) : Int :=
  (text.take i).count (code '(') - (text.take i).count (code ')')

def StandsAt (operator : Operator) (i : Nat) : Prop :=
  text[i]? = some (code operator.symbol)

/-- The split is at the least depth at which an operator stands, at the sum if one stands there,
and at all positions of its operator at that depth. -/
structure SplitsAt (split : Split) (depth : Int) : Prop where
  attained : ∃ operator i, StandsAt code text operator i ∧ depthAt code text i = depth
  least : ∀ operator i, StandsAt code text operator i → depth ≤ depthAt code text i
  sum_iff : split.operator = .add ↔
    ∃ i, StandsAt code text .add i ∧ depthAt code text i = depth
  increasing : split.positions.Pairwise (· < ·)
  mem_iff : ∀ i, i ∈ split.positions ↔
    StandsAt code text split.operator i ∧ depthAt code text i = depth

/-- What a search for a place to split has to answer. -/
structure Splits (found : Option Split) : Prop where
  none_iff : found = none ↔ code '+' ∉ text ∧ code '*' ∉ text
  splitsAt : ∀ split, found = some split → ∃ depth, SplitsAt code text split depth

end Positions

/-! ## Characters -/

section Characters

variable {operator : Operator} {level : Int} {s : List Char}

theorem standsAt_iff_mem_occurrences {i : Nat} :
    StandsAt id s operator i ∧ depthAt id s i = level ↔ i ∈ occurrences operator level s := by
  rw [mem_occurrences, net_eq_count]
  rfl

theorem stands_iff_standsAt :
    Stands operator level s ↔ ∃ i, StandsAt id s operator i ∧ depthAt id s i = level := by
  simp only [stands_iff_mem_occurrences, standsAt_iff_mem_occurrences]

theorem Shallowest.splitsAt (h : Shallowest s level operator) :
    SplitsAt id s ⟨operator, occurrences operator level s⟩ level where
  attained := ⟨operator, stands_iff_standsAt.mp h.stands⟩
  least other i hi := h.least other _ (stands_iff_standsAt.mpr ⟨i, hi, rfl⟩)
  sum_iff := by
    rw [← stands_iff_standsAt]
    refine ⟨?_, h.sum_first⟩
    rintro rfl
    exact h.stands
  increasing := occurrences_sorted
  mem_iff _ := standsAt_iff_mem_occurrences.symm

theorem splits_shallowest? (s : List Char) : Splits id s (Split.shallowest? s) where
  none_iff := by
    rw [Split.shallowest?_eq_none_iff_symbol]
    refine ⟨fun h => ⟨h .add, h .multiply⟩, ?_⟩
    rintro ⟨hadd, hmultiply⟩ operator
    cases operator with
    | add => exact hadd
    | multiply => exact hmultiply
  splitsAt split hsplit := by
    obtain ⟨level, hshallow, hpositions⟩ := Split.shallowest?_eq_some_iff.mp hsplit
    have hsplit : split = ⟨split.operator, occurrences split.operator level s⟩ := by
      rw [← hpositions]
    rw [hsplit]
    exact ⟨level, hshallow.splitsAt⟩

end Characters

namespace Bytewise

/-! ## Bytes read as characters -/

section Bytes

variable {operator : Operator} {bs : List UInt8}

theorem symbol_toNat_lt (operator : Operator) : operator.symbol.toNat < 128 := by
  cases operator <;> decide

theorem mem_map_ofUInt8 {c : Char} (hc : c.toNat < 128) :
    c ∈ bs.map Char.ofUInt8 ↔ c.toUInt8 ∈ bs := by
  rw [List.mem_map]
  constructor
  · rintro ⟨b, hb, hbc⟩
    exact (eq_toUInt8_iff hc).mpr hbc ▸ hb
  · intro hb
    exact ⟨_, hb, ofUInt8_toUInt8 hc⟩

theorem count_map_ofUInt8 {c : Char} (hc : c.toNat < 128) :
    (bs.map Char.ofUInt8).count c = bs.count c.toUInt8 := by
  have hinj : Function.Injective Char.ofUInt8 := fun a b hab => by
    rw [← toUInt8_ofUInt8 a, hab, toUInt8_ofUInt8]
  have hcount := List.count_map_of_injective bs Char.ofUInt8 hinj c.toUInt8
  rwa [ofUInt8_toUInt8 hc] at hcount

theorem depthAt_map_ofUInt8 (bs : List UInt8) (i : Nat) :
    depthAt id (bs.map Char.ofUInt8) i = depthAt Char.toUInt8 bs i := by
  simp only [depthAt, id, ← List.map_take]
  rw [count_map_ofUInt8 (by decide), count_map_ofUInt8 (by decide)]

theorem standsAt_map_ofUInt8 {i : Nat} :
    StandsAt id (bs.map Char.ofUInt8) operator i ↔ StandsAt Char.toUInt8 bs operator i := by
  rw [StandsAt, StandsAt, List.getElem?_map, Option.map_eq_some_iff]
  constructor
  · rintro ⟨b, hb, hsymbol⟩
    rw [hb, (eq_toUInt8_iff (symbol_toNat_lt operator)).mpr hsymbol]
  · intro hb
    exact ⟨_, hb, ofUInt8_toUInt8 (symbol_toNat_lt operator)⟩

/-- Whether the signs are bytes or the characters with their numbers makes no difference. -/
theorem splits_of_map_ofUInt8 {found : Option Split}
    (h : Splits id (bs.map Char.ofUInt8) found) : Splits Char.toUInt8 bs found where
  none_iff := by
    rw [h.none_iff]
    exact and_congr (not_congr (mem_map_ofUInt8 (by decide)))
      (not_congr (mem_map_ofUInt8 (by decide)))
  splitsAt split hsplit := by
    obtain ⟨depth, hat⟩ := h.splitsAt split hsplit
    refine ⟨depth, ?_⟩
    obtain ⟨hattained, hleast, hsum, hincreasing, hmem⟩ := hat
    simp only [standsAt_map_ofUInt8, depthAt_map_ofUInt8] at hattained hleast hsum hmem
    exact ⟨hattained, hleast, hsum, hincreasing, hmem⟩

end Bytes

/-! ## Characters as bytes -/

/-- The bytes of a character, read as characters. -/
def units (c : Char) : List Char :=
  (String.utf8EncodeChar c).map Char.ofUInt8

theorem map_ofUInt8_bytes (text : String) :
    (bytes text).map Char.ofUInt8 = text.toList.flatMap units := by
  conv => lhs; rw [← String.ofList_toList (s := text)]
  rw [bytes_eq_flatMap, List.map_flatMap]
  rfl

theorem units_of_lt {c : Char} (hc : c.toNat < 128) : units c = [c] := by
  rw [units, utf8EncodeChar_eq hc, List.map_singleton, ofUInt8_toUInt8 hc]

theorem length_units (c : Char) : (units c).length = c.utf8Size := by
  rw [units, List.length_map, String.length_utf8EncodeChar]

/-- Beyond ASCII, every byte of a character is beyond ASCII. -/
theorem le_toNat_of_mem_units {c d : Char} (hc : 128 ≤ c.toNat) (hd : d ∈ units c) :
    128 ≤ d.toNat := by
  obtain ⟨b, hb, rfl⟩ := List.mem_map.mp hd
  rw [toNat_ofUInt8]
  rw [← Char.toNat_val] at hc
  have hlt := c.val.toNat_lt
  unfold String.utf8EncodeChar at hb
  dsimp only at hb
  -- one byte is too few for the character, and two or more all have their highest bit set
  split_ifs at hb <;> simp only [List.mem_cons, List.not_mem_nil, or_false] at hb
  · omega
  · rcases hb with rfl | rfl <;> rw [UInt8.toNat_ofNat'] <;> omega
  · rcases hb with rfl | rfl | rfl <;> rw [UInt8.toNat_ofNat'] <;> omega
  · rcases hb with rfl | rfl | rfl | rfl <;> rw [UInt8.toNat_ofNat'] <;> omega

theorem nesting_of_le {c : Char} (hc : 128 ≤ c.toNat) : nesting c = 0 := by
  refine nesting_of_ne ?_ ?_ <;> rintro rfl <;> revert hc <;> decide

theorem symbol_ne_of_le {c : Char} (hc : 128 ≤ c.toNat) (operator : Operator) :
    c ≠ operator.symbol := by
  rintro rfl
  have := symbol_toNat_lt operator
  omega

theorem net_units (c : Char) : net (units c) = nesting c := by
  by_cases hc : c.toNat < 128
  · simp [units_of_lt hc]
  · rw [nesting_of_le (by omega)]
    exact net_eq_zero_of_forall fun d hd =>
      nesting_of_le (le_toNat_of_mem_units (by omega) hd)

theorem occurrences_units (operator : Operator) (level : Int) (c : Char) :
    occurrences operator level (units c) = occurrences operator level [c] := by
  by_cases hc : c.toNat < 128
  · rw [units_of_lt hc]
  · have hclear {s : List Char} (hs : ∀ d ∈ s, 128 ≤ d.toNat) :
        occurrences operator level s = [] :=
      occurrences_eq_nil fun h => symbol_ne_of_le (hs _ h.mem) operator rfl
    rw [hclear fun d hd => le_toNat_of_mem_units (by omega) hd, hclear (by simpa using hc)]

/-- Where the bytes of a character begin. -/
def byteOffset (s : List Char) (i : Nat) : Nat :=
  (String.ofList (s.take i)).utf8ByteSize

theorem byteOffset_zero (s : List Char) : byteOffset s 0 = 0 := by
  simp [byteOffset]

theorem byteOffset_succ (c : Char) (s : List Char) (i : Nat) :
    byteOffset (c :: s) (i + 1) = byteOffset s i + c.utf8Size := by
  rw [byteOffset, List.take_succ_cons, String.ofList_cons, String.utf8ByteSize_append,
    String.utf8ByteSize_singleton, Nat.add_comm]
  rfl

/-- The operators are at the same depths, and behind as many bytes as their positions say. -/
theorem occurrences_flatMap_units (operator : Operator) (level : Int) (s : List Char) :
    occurrences operator level (s.flatMap units) =
      (occurrences operator level s).map (byteOffset s) := by
  induction s generalizing level with
  | nil => rfl
  | cons c s ih =>
    have hcons : occurrences operator level (c :: s) = occurrences operator level [c] ++
        (occurrences operator (level - nesting c) s).map (· + 1) := by
      simpa using occurrences_append (s := [c]) s
    -- nothing stands before the first character, and its bytes stand before all others
    have hfirst : (occurrences operator level [c]).map (byteOffset (c :: s)) =
        occurrences operator level [c] := by
      rw [occurrences_cons]
      split <;> simp [byteOffset_zero]
    have hshift : byteOffset (c :: s) ∘ (· + 1) = (· + (units c).length) ∘ byteOffset s := by
      funext i
      simp only [Function.comp_apply, byteOffset_succ, length_units]
    rw [List.flatMap_cons, occurrences_append, occurrences_units, net_units, ih, hcons,
      List.map_append, hfirst, List.map_map, List.map_map, hshift]

theorem stands_flatMap_units {operator : Operator} {level : Int} {s : List Char} :
    Stands operator level (s.flatMap units) ↔ Stands operator level s := by
  simp [stands_iff_mem_occurrences, occurrences_flatMap_units]

theorem shallowest_flatMap_units {operator : Operator} {level : Int} {s : List Char}
    (h : Shallowest s level operator) : Shallowest (s.flatMap units) level operator where
  stands := stands_flatMap_units.mpr h.stands
  least other depth hs := h.least other depth (stands_flatMap_units.mp hs)
  sum_first hs := h.sum_first (stands_flatMap_units.mp hs)

/-- The same split, at positions of bytes. -/
def inBytes (s : List Char) (split : Split) : Split :=
  { split with positions := split.positions.map (byteOffset s) }

theorem shallowest?_flatMap_units (s : List Char) :
    Split.shallowest? (s.flatMap units) = (Split.shallowest? s).map (inBytes s) := by
  cases hfound : Split.shallowest? s with
  | none =>
    rw [Split.shallowest?_eq_none_iff] at hfound
    rw [Option.map_none, Split.shallowest?_eq_none_iff]
    exact fun operator level hs => hfound operator level (stands_flatMap_units.mp hs)
  | some split =>
    obtain ⟨level, hshallow, hpositions⟩ := Split.shallowest?_eq_some_iff.mp hfound
    rw [Option.map_some, Split.shallowest?_eq_some_iff]
    refine ⟨level, shallowest_flatMap_units hshallow, ?_⟩
    rw [inBytes, hpositions, occurrences_flatMap_units]

end Bytewise

/-! ## The pass -/

namespace Split

/-- The pass finds what there is to find, in the characters of a text and at the same places in
its bytes. In machine words it comes to the same end, since no text in memory is so long that a
depth could leave its word. -/
theorem pass_finds_shallowest (text : String) :
    Splits id text.toList (shallowest? text.toList) ∧
      Splits Char.toUInt8 (bytes text) ((shallowest? text.toList).map (inBytes text.toList)) ∧
      (text.utf8ByteSize < 2 ^ 63 →
        findSplit text = .ok ((shallowest? text.toList).map (inBytes text.toList))) := by
  have hbytes : shallowest? ((bytes text).map Char.ofUInt8) =
      (shallowest? text.toList).map (inBytes text.toList) := by
    rw [map_ofUInt8_bytes, shallowest?_flatMap_units]
  refine ⟨splits_shallowest? text.toList, ?_, fun hlength => ?_⟩
  · rw [← hbytes]
    exact splits_of_map_ofUInt8 (splits_shallowest? _)
  · rw [findSplit_eq_shallowest? hlength, hbytes]

/-- Both products stand behind a parenthesis without a partner, and above the sum. A blank of
three bytes moves them. -/
theorem pass_finds_products_above_sum :
    findSplit "1)\u2003*(2+3)*4" = .ok (some ⟨.multiply, [5, 11]⟩) ∧
      Splits Char.toUInt8 (bytes "1)\u2003*(2+3)*4") (some ⟨.multiply, [5, 11]⟩) := by
  have hfound : (shallowest? "1)\u2003*(2+3)*4".toList).map (inBytes "1)\u2003*(2+3)*4".toList) =
      some ⟨.multiply, [5, 11]⟩ := by decide
  obtain ⟨-, hbytes, hpass⟩ := pass_finds_shallowest "1)\u2003*(2+3)*4"
  rw [hfound] at hbytes hpass
  exact ⟨hpass (by decide), hbytes⟩

end Split
end ExprTree
