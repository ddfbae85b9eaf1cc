import LPRng.Permission

/-!
# Addresses and masks

An entry `addr/m` or `addr/mask` of a list of hosts stands for the addresses that agree with `addr` in
the first `m` bits, or in the bits of `mask`. `form_addr_and_mask` makes a mask of both, and
`cmp_ip_addr` compares an address with it.
-/

namespace LPRng

namespace Permission

/-! ## Bits -/

/-- A bit of an address, the highest bit of its first byte being the first. -/
def bitAt (s : Bytes) (i : Nat) : Bool := (s.getD (i / 8) 0).toNat.testBit (7 - i % 8)

theorem masked_eq_zero_iff (m a h : UInt8) :
    m &&& (a ^^^ h) = 0 ↔ ∀ r < 8, m.toNat.testBit (7 - r) = true → a.toNat.testBit (7 - r) = h.toNat.testBit (7 - r) := by
  rw [← UInt8.toNat_inj, UInt8.toNat_and, UInt8.toNat_xor]
  constructor
  · intro zero r _ set
    have bit := congrArg (Nat.testBit · (7 - r)) zero
    simpa [Nat.testBit_and, Nat.testBit_xor, set] using bit
  · intro same
    refine Nat.eq_of_testBit_eq fun i => ?_
    rw [Nat.testBit_and, Nat.testBit_xor]
    by_cases low : i < 8
    · have here := same (7 - i) (by omega)
      rw [show 7 - (7 - i) = i by omega] at here
      cases set : m.toNat.testBit i with
      | false => simp
      | true => simp [here set]
    · have high : m.toNat.testBit i = false :=
        Nat.testBit_lt_two_pow (lt_of_lt_of_le m.toNat_lt (Nat.pow_le_pow_right (by decide) (Nat.le_of_not_lt low)))
      simp [high]

/-- `cmp_ip_addr` compares the bits that are set in the mask. -/
theorem cmpIpAddr_eq_false_iff {h a m : Bytes} {len : Nat} (given : 0 < len) :
    cmpIpAddr h a m len = false ↔ ∀ i < 8 * len, bitAt m i = true → bitAt a i = bitAt h i := by
  rw [cmpIpAddr, decide_eq_false (by omega), Bool.false_or, List.any_eq_false]
  constructor
  · intro equal i bound set
    have here := equal (i / 8) (List.mem_range.mpr (by omega))
    rw [decide_eq_true_iff, not_not, masked_eq_zero_iff] at here
    exact here (i % 8) (Nat.mod_lt _ (by decide)) set
  · intro same j member
    rw [decide_eq_true_iff, not_not, masked_eq_zero_iff]
    intro r bound set
    have here := same (8 * j + r) (by have := List.mem_range.mp member; omega)
    unfold bitAt at here
    rw [show (8 * j + r) / 8 = j by omega, show (8 * j + r) % 8 = r by omega] at here
    exact here set

/-! ## The mask of a prefix -/

/-- As many bits as a number tells, in whole bytes, a part of one and zeros. -/
def prefixMask (len m : Nat) : Bytes :=
  let part := if m % 8 = 0 then [] else [UInt8.ofNat (256 - 2 ^ (8 - m % 8))]
  ((List.replicate (min (m / 8) len) 255 ++ part).take len).rightpad len 0

theorem prefixMask_getD {len m j : Nat} (bound : j < len) : (prefixMask len m).getD j 0 =
    if j < m / 8 then 255 else if j = m / 8 ∧ m % 8 ≠ 0 then UInt8.ofNat (256 - 2 ^ (8 - m % 8)) else 0 := by
  rw [prefixMask]
  have padded : ∀ l : Bytes, (l.rightpad len 0).getD j 0 = l.getD j 0 := by
    intro l
    rw [List.rightpad, List.getD_eq_getElem?_getD, List.getD_eq_getElem?_getD, List.getElem?_append]
    split
    · rfl
    · rename_i beyond
      rw [List.getElem?_eq_none (Nat.le_of_not_lt beyond), List.getElem?_replicate]
      split <;> rfl
  rw [padded, List.getD_eq_getElem?_getD, List.getElem?_take_of_lt bound, List.getElem?_append, List.length_replicate]
  by_cases whole : j < m / 8
  · rw [if_pos (by omega), if_pos whole, List.getElem?_replicate, if_pos (by omega)]
    rfl
  · rw [if_neg (by omega), if_neg whole]
    by_cases rest : m % 8 = 0
    · rw [if_pos rest, if_neg fun both => both.2 rest]
      rfl
    · rw [if_neg rest]
      by_cases last : j = m / 8
      · rw [if_pos ⟨last, rest⟩, show j - min (m / 8) len = 0 by omega]
        rfl
      · rw [if_neg fun both => last both.1, List.getElem?_eq_none (by rw [List.length_singleton]; omega)]
        rfl

theorem bitAt_prefixMask {len m i : Nat} (bound : i < 8 * len) : bitAt (prefixMask len m) i = decide (i < m) := by
  have whole : ∀ r < 8, (255 : UInt8).toNat.testBit (7 - r) = true := by decide
  have part : ∀ b < 8, ∀ r < 8, b ≠ 0 → (UInt8.ofNat (256 - 2 ^ (8 - b))).toNat.testBit (7 - r) = decide (r < b) := by decide
  rw [bitAt, prefixMask_getD (show i / 8 < len by omega)]
  split
  · rw [whole _ (Nat.mod_lt _ (by decide)), decide_eq_true (show i < m by omega)]
  · split
    · rw [part _ (Nat.mod_lt _ (by decide)) _ (Nat.mod_lt _ (by decide)) (by omega)]
      exact decide_eq_decide.mpr (by omega)
    · rw [show (0 : UInt8).toNat = 0 from rfl, Nat.zero_testBit, decide_eq_false (by omega)]

/-- A prefix of all bits and more is the whole address. -/
theorem prefixMask_agree_iff {h a : Bytes} {len m : Nat} (given : 0 < len) :
    cmpIpAddr h a (prefixMask len m) len = false ↔ ∀ i < min m (8 * len), bitAt a i = bitAt h i := by
  rw [cmpIpAddr_eq_false_iff given]
  constructor
  · intro same i bound
    refine same i (by omega) ?_
    rw [bitAt_prefixMask (by omega), decide_eq_true (by omega)]
  · intro same i bound set
    rw [bitAt_prefixMask bound, decide_eq_true_iff] at set
    exact same i (by omega)

/-- An address with one bit of another turned round. -/
theorem exists_flipped {a : Bytes} {len k : Nat} (size : a.length = len) (bound : k < 8 * len) :
    ∃ h : Bytes, h.length = len ∧ bitAt h k ≠ bitAt a k ∧ ∀ i, i ≠ k → bitAt h i = bitAt a i := by
  let h := a.set (k / 8) (a.getD (k / 8) 0 ^^^ UInt8.ofNat (2 ^ (7 - k % 8)))
  have power : (UInt8.ofNat (2 ^ (7 - k % 8))).toNat = 2 ^ (7 - k % 8) := by
    have small : ∀ r < 8, (UInt8.ofNat (2 ^ (7 - r))).toNat = 2 ^ (7 - r) := by decide
    exact small _ (Nat.mod_lt _ (by decide))
  have bit : ∀ i, i / 8 = k / 8 → bitAt h i = (bitAt a i ^^ decide (k % 8 = i % 8)) := by
    intro i same
    rw [bitAt, bitAt, same, List.getD_eq_getElem?_getD, List.getElem?_set_self (by omega), Option.getD_some, UInt8.toNat_xor,
      Nat.testBit_xor, power, Nat.testBit_two_pow]
    congr 1
    exact decide_eq_decide.mpr (by omega)
  refine ⟨h, by rw [List.length_set, size], ?_, fun i other => ?_⟩
  · rw [bit k rfl, decide_eq_true rfl, Bool.xor_true]
    exact Bool.not_ne_self _
  · by_cases same : i / 8 = k / 8
    · rw [bit i same, decide_eq_false (by omega), Bool.xor_false]
    · rw [bitAt, bitAt, List.getD_eq_getElem?_getD, List.getElem?_set_ne (Ne.symm same), ← List.getD_eq_getElem?_getD]

/-- The bits that are compared can be told from the addresses that agree in them. -/
theorem compared_of_agree {a : Bytes} {len : Nat} (size : a.length = len) {P Q : Nat → Prop}
    (same : ∀ h : Bytes, h.length = len →
      ((∀ i < 8 * len, P i → bitAt a i = bitAt h i) → ∀ i < 8 * len, Q i → bitAt a i = bitAt h i))
    {i : Nat} (bound : i < 8 * len) (compared : Q i) : P i := by
  rcases exists_flipped size bound with ⟨h, length, flipped, others⟩
  by_contra other
  refine flipped (same h length (fun j _ holds => (others j ?_).symm) i bound compared).symm
  exact fun equal => other (equal ▸ holds)

/-! ## What an entry stands for -/

/-- A decimal prefix length, which is not more than an address has bits. -/
def decimalLength (family : Family) (s : Bytes) : Option Nat :=
  if s ≠ [] ∧ s.all isDigit ∧ (scanNat 10 0 s).1 ≤ 8 * family.length then some (scanNat 10 0 s).1 else none

/-- The prefix length that `form_addr_and_mask` reads: any number for `strtol`, which looks for its base. -/
def lengthRead (family : Family) (s : Bytes) : Option Nat :=
  let m := toInt32 (strtol 0 s).1
  if (strtol 0 s).2 = [] ∧ 0 ≤ m then some (min m.toNat (8 * family.length)) else none

/-- The host addresses that an entry stands for, for a prefix length if there is one. -/
def AgreesWith (inetPton : Family → Bytes → Option Bytes) (family : Family) (length : Option Nat) (addr mask h : Bytes) : Prop :=
  ∃ a, inetPton family addr = some a ∧
    match length with
    | some m => ∀ i < m, bitAt a i = bitAt h i
    | none => ∃ k, inetPton family mask = some k ∧ ∀ i < 8 * family.length, bitAt k i = true → bitAt a i = bitAt h i

def StandsFor (inetPton : Family → Bytes → Option Bytes) (family : Family) (addr mask h : Bytes) : Prop :=
  AgreesWith inetPton family (decimalLength family mask) addr mask h

/-- What `inet_pton` is known for: an address has the length of its family, and its text has a dot or a
colon. -/
structure ReadsAddresses (inetPton : Family → Bytes → Option Bytes) : Prop where
  length : ∀ family s a, inetPton family s = some a → a.length = family.length
  marked : ∀ family s a, inetPton family s = some a → 46 ∈ s ∨ 58 ∈ s

/-- `form_addr_and_mask` and then `cmp_ip_addr`. -/
def addressMatches (db : Databases) (v : Bytes) (family : Family) (h : Bytes) : Bool :=
  match formAddrAndMask db v family with
  | none => false
  | some (addr, mask) => !cmpIpAddr h addr mask family.length

section

variable {db : Databases} {family : Family} {addr mask h : Bytes}

theorem formAddrAndMask_eq (db : Databases) (family : Family) (free : 47 ∉ addr) (mask : Bytes) :
    formAddrAndMask db (addr ++ 47 :: mask) family = (db.inetPton family addr).bind fun a =>
      if (strtol 0 mask).2 ≠ [] then (db.inetPton family mask).map (a, ·)
      else if toInt32 (strtol 0 mask).1 < 0 then none
      else some (a, prefixMask family.length (toInt32 (strtol 0 mask).1).toNat) := by
  have all : ∀ c ∈ addr, decide (c ≠ 47) = true := fun c member => decide_eq_true fun equal => free (equal ▸ member)
  rw [formAddrAndMask, List.takeWhile_append_of_pos all, List.takeWhile_cons_of_neg (by decide), List.append_nil,
    List.dropWhile_append_of_pos all, List.dropWhile_cons_of_neg (by decide)]
  cases db.inetPton family addr with
  | none => rfl
  | some a => rfl

theorem length_pos (family : Family) : 0 < family.length := by
  cases family <;> decide

/-! ## Numbers -/

/-- A number has neither a dot nor a colon. -/
theorem unmarked_of_strtol {s : Bytes} (whole : (strtol 0 s).2 = []) : 46 ∉ s ∧ 58 ∉ s :=
  ⟨not_mem_of_strtol whole (by decide) (by decide) (by decide) (by decide),
    not_mem_of_strtol whole (by decide) (by decide) (by decide) (by decide)⟩

theorem unmarked_of_digits {s : Bytes} (digits : s.all isDigit = true) : 46 ∉ s ∧ 58 ∉ s := by
  rw [List.all_eq_true] at digits
  constructor
  · intro member
    cases digits 46 member
  · intro member
    cases digits 58 member

theorem lengthRead_le {m : Nat} (code : lengthRead family mask = some m) : m ≤ 8 * family.length := by
  rw [lengthRead] at code
  split at code
  · cases code
    exact Nat.min_le_right _ _
  · cases code

theorem unmarked_of_lengthRead {m : Nat} (code : lengthRead family mask = some m) : 46 ∉ mask ∧ 58 ∉ mask := by
  rw [lengthRead] at code
  split at code
  · rename_i number
    exact unmarked_of_strtol number.1
  · cases code

theorem decimalLength_le {m : Nat} (decimal : decimalLength family mask = some m) : m ≤ 8 * family.length := by
  rw [decimalLength] at decimal
  split at decimal
  · rename_i digits
    cases decimal
    exact digits.2.2
  · cases decimal

theorem unmarked_of_decimalLength {m : Nat} (decimal : decimalLength family mask = some m) : 46 ∉ mask ∧ 58 ∉ mask := by
  rw [decimalLength] at decimal
  split at decimal
  · rename_i digits
    exact unmarked_of_digits digits.2.1
  · cases decimal

theorem addressMatches_iff (reads : ReadsAddresses db.inetPton) (free : 47 ∉ addr) :
    addressMatches db (addr ++ 47 :: mask) family h = true ↔
      AgreesWith db.inetPton family (lengthRead family mask) addr mask h := by
  rw [addressMatches, formAddrAndMask_eq db family free, AgreesWith, lengthRead]
  cases parsed : db.inetPton family addr with
  | none => simp
  | some a =>
      rw [Option.bind_some]
      simp only [Option.some.injEq, exists_eq_left']
      by_cases whole : (strtol 0 mask).2 = []
      · rw [if_neg (not_not.mpr whole)]
        have number := unmarked_of_strtol whole
        split_ifs with negative fine fine
        · exact absurd fine.2 (by omega)
        · refine iff_of_false not_false fun found => ?_
          rcases found with ⟨k, known, -⟩
          rcases reads.marked _ _ _ known with dot | colon
          · exact number.1 dot
          · exact number.2 colon
        · rw [Bool.not_eq_true', prefixMask_agree_iff (length_pos family)]
        · exact absurd ⟨whole, by omega⟩ fine
      · rw [if_pos whole, if_neg fun both => whole both.1]
        cases known : db.inetPton family mask with
        | none => simp
        | some k =>
            simp only [Option.map_some, Bool.not_eq_true', cmpIpAddr_eq_false_iff (length_pos family), Option.some.injEq,
              exists_eq_left']

/-- The addresses that match an entry are those it stands for, exactly if its first part is no address or
the prefix length is read as the decimal number it is. -/
theorem addressMatches_standsFor_iff (reads : ReadsAddresses db.inetPton) (free : 47 ∉ addr) :
    (∀ h : Bytes, h.length = family.length →
        (addressMatches db (addr ++ 47 :: mask) family h = true ↔ StandsFor db.inetPton family addr mask h)) ↔
      db.inetPton family addr = none ∨ lengthRead family mask = decimalLength family mask := by
  simp only [addressMatches_iff reads free, StandsFor]
  constructor
  · intro same
    cases parsed : db.inetPton family addr with
    | none => exact .inl rfl
    | some a =>
        refine .inr ?_
        have size := reads.length _ _ _ parsed
        have bits : ∀ length h, AgreesWith db.inetPton family length addr mask h ↔
            match length with
            | some m => ∀ i < m, bitAt a i = bitAt h i
            | none => ∃ k, db.inetPton family mask = some k ∧
                ∀ i < 8 * family.length, bitAt k i = true → bitAt a i = bitAt h i := by
          intro length h
          simp only [AgreesWith, parsed, Option.some.injEq, exists_eq_left']
        simp only [bits] at same
        have unknown : ∀ {s : Bytes}, 46 ∉ s ∧ 58 ∉ s → db.inetPton family s = none := by
          intro s unmarked
          cases known : db.inetPton family s with
          | none => rfl
          | some k => exact ((reads.marked _ _ _ known).elim unmarked.1 unmarked.2).elim
        cases code : lengthRead family mask with
        | none =>
            cases decimal : decimalLength family mask with
            | none => rfl
            | some d =>
                have absent := unknown (unmarked_of_decimalLength decimal)
                have all := same a size
                rw [code, decimal, absent] at all
                rcases all.mpr fun i _ => rfl with ⟨k, absurdity, -⟩
                cases absurdity
        | some m =>
            cases decimal : decimalLength family mask with
            | none =>
                have absent := unknown (unmarked_of_lengthRead code)
                have all := same a size
                rw [code, decimal, absent] at all
                rcases all.mp fun i _ => rfl with ⟨k, absurdity, -⟩
                cases absurdity
            | some d =>
                have low := lengthRead_le code
                have low' := decimalLength_le decimal
                simp only [code, decimal] at same
                have few : ¬m < d := fun less => by
                  have compared : m < m := compared_of_agree size (P := (· < m)) (Q := (· < d))
                    (fun h length agree i _ inside => (same h length).mp (fun j early => agree j (by omega) early) i inside)
                    (show m < 8 * family.length by omega) less
                  omega
                have many : ¬d < m := fun less => by
                  have compared : d < d := compared_of_agree size (P := (· < d)) (Q := (· < m))
                    (fun h length agree i _ inside => (same h length).mpr (fun j early => agree j (by omega) early) i inside)
                    (show d < 8 * family.length by omega) less
                  omega
                rw [show m = d by omega]
  · intro which
    rcases which with unparsed | equal
    · intro h _
      simp [AgreesWith, unparsed]
    · intro h _
      rw [equal]

end

/-! ## Dotted addresses -/

def octet (s : Bytes) : Option UInt8 :=
  if s ≠ [] ∧ s.all isDigit ∧ (s.head? = some 48 → s = [48]) ∧ (scanNat 10 0 s).1 < 256 then
    some (UInt8.ofNat (scanNat 10 0 s).1)
  else none

/-- `inet_pton` for the addresses of the first family. -/
def dottedPton (family : Family) (s : Bytes) : Option Bytes :=
  match family, (s.splitOn 46).map octet with
  | .inet, [some a, some b, some c, some d] => some [a, b, c, d]
  | _, _ => none

theorem readsAddresses_dottedPton : ReadsAddresses dottedPton := by
  constructor
  · intro family s a known
    unfold dottedPton at known
    split at known
    · cases known
      rfl
    · cases known
  · intro family s a known
    by_contra unmarked
    have single : s.splitOn 46 = [s] := List.splitOn_eq_singleton fun dot => unmarked (.inl dot)
    unfold dottedPton at known
    split at known
    · rename_i parts
      rw [single] at parts
      exact absurd (congrArg List.length parts) (by simp)
    · cases known

def dotted : Databases := { noDatabases with inetPton := dottedPton }

/-- `10.0.0.0/` without a prefix length matches a host of another network. -/
theorem no_length_matched :
    addressMatches dotted (lit "10.0.0.0" ++ 47 :: []) .inet [11, 0, 0, 1] = true ∧
      ¬StandsFor dotted.inetPton .inet (lit "10.0.0.0") [] [11, 0, 0, 1] := by
  constructor
  · decide
  · intro found
    rcases found with ⟨a, -, k, absurdity, -⟩
    cases absurdity

end Permission

end LPRng
