-- Machine words: addresses and captured values are numbers below 2^64. Here is how they
-- wrap, how they stop at the top, how they are written, and how they lie in memory as bytes.

namespace Detouring

/-! ## Arithmetic -/

/-- How many values a word has. -/
def wordCount : Nat := 0x10000000000000000

/-- The largest word, and the largest address. -/
def maxWord : Nat := wordCount - 1

/-- The word a sum stands for when it runs past the top or below zero. -/
def wrapWord (i : Int) : Nat := (i % (wordCount : Int)).toNat

/-- The signed distance between two addresses, the short way round. -/
def wordDifference (a b : Nat) : Int := Int.bmod ((a : Int) - b) wordCount

/-- A sum that stops at the largest word. -/
def clampedAdd (a b : Nat) : Nat := min (a + b) maxWord

/-- The low 32 bits of a value, read as a signed number. -/
def signed32 (n : Nat) : Int := Int.bmod ((n % 0x100000000 : Nat) : Int) 0x100000000

/-- The low 64 bits of a value, read as a signed number. -/
def signed64 (n : Nat) : Int := Int.bmod ((n % wordCount : Nat) : Int) wordCount

/-- `true` if a displacement fits a signed field of 32 bits. -/
def fitsSigned32 (i : Int) : Bool := decide (-0x80000000 ≤ i ∧ i < 0x80000000)

/-- `true` if a displacement fits a signed field of 8 bits. -/
def fitsSigned8 (i : Int) : Bool := decide (-0x80 ≤ i ∧ i < 0x80)

theorem wrapWord_lt (i : Int) : wrapWord i < wordCount := by
  have h0 := Int.emod_nonneg i (show ((wordCount : Nat) : Int) ≠ 0 by decide)
  have h1 := Int.emod_lt_of_pos i (show 0 < ((wordCount : Nat) : Int) by decide)
  unfold wrapWord
  omega

theorem wrapWord_of_lt (n : Nat) (h : n < wordCount) : wrapWord (n : Int) = n := by
  unfold wrapWord
  rw [Int.emod_eq_of_lt (by omega) (by omega)]
  rfl

/-! ## Sums -/

/-- The sum of what the things of a list count for. -/
def sumOf {α : Type} (f : α → Nat) : List α → Nat
  | [] => 0
  | a :: rest => f a + sumOf f rest

section

variable {α β : Type} (f : α → Nat)

@[simp] theorem sumOf_nil : sumOf f [] = 0 := rfl

@[simp] theorem sumOf_cons (a : α) (l : List α) : sumOf f (a :: l) = f a + sumOf f l := rfl

@[simp] theorem sumOf_append (l l' : List α) : sumOf f (l ++ l') = sumOf f l + sumOf f l' := by
  induction l with
  | nil => simp
  | cons a rest ih => simp [ih, Nat.add_assoc]

@[simp] theorem sumOf_map (g : β → α) (l : List β) :
    sumOf f (l.map g) = sumOf (fun b => f (g b)) l := by
  induction l with
  | nil => rfl
  | cons b rest ih => simp [ih]

theorem sumOf_add (g : α → Nat) (l : List α) :
    sumOf (fun a => f a + g a) l = sumOf f l + sumOf g l := by
  induction l with
  | nil => rfl
  | cons a rest ih =>
    simp only [sumOf_cons, ih]
    omega

theorem sumOf_eq_zero {l : List α} (h : ∀ a ∈ l, f a = 0) : sumOf f l = 0 := by
  induction l with
  | nil => rfl
  | cons a rest ih =>
    rw [sumOf_cons, h a List.mem_cons_self, ih fun b mb => h b (List.mem_cons_of_mem a mb)]

end

/-! ## Rounding

Alignments are positive; rounding to zero bytes leaves a value alone. -/

def roundDown (n align : Nat) : Nat := n - n % align

def roundUp (n align : Nat) : Nat := roundDown (n + (align - 1)) align

theorem roundDown_le (n align : Nat) : roundDown n align ≤ n := Nat.sub_le _ _

theorem le_roundUp (n align : Nat) (h : 0 < align) : n ≤ roundUp n align := by
  have := Nat.mod_lt (n + (align - 1)) h
  unfold roundUp roundDown
  omega

/-! ## Little-endian bytes -/

/-- The lowest `count` bytes of a value, lowest first. -/
def leBytes : (count : Nat) → (value : Nat) → List UInt8
  | 0, _ => []
  | count + 1, value => UInt8.ofNat value :: leBytes count (value / 256)

/-- How many values that many bytes have. -/
def valuesIn : (count : Nat) → Nat
  | 0 => 1
  | count + 1 => 256 * valuesIn count

/-- The value that bytes stand for, lowest first. -/
def ofLeBytes : List UInt8 → Nat
  | [] => 0
  | b :: rest => b.toNat + 256 * ofLeBytes rest

/-- The four bytes of a signed displacement. -/
def leSigned32 (i : Int) : List UInt8 := leBytes 4 (i % 0x100000000).toNat

@[simp] theorem length_leBytes (count value : Nat) : (leBytes count value).length = count := by
  induction count generalizing value with
  | zero => rfl
  | succ n ih => simp [leBytes, ih]

theorem ofLeBytes_leBytes (count value : Nat) :
    ofLeBytes (leBytes count value) = value % valuesIn count := by
  induction count generalizing value with
  | zero => simp [leBytes, ofLeBytes, valuesIn, Nat.mod_one]
  | succ n ih =>
    have low : (UInt8.ofNat value).toNat = value % 256 := rfl
    rw [leBytes, ofLeBytes, ih, low, valuesIn, Nat.mod_mul]

theorem ofLeBytes_lt (l : List UInt8) : ofLeBytes l < valuesIn l.length := by
  induction l with
  | nil => exact Nat.zero_lt_one
  | cons b rest ih =>
    have := b.toNat_lt
    rw [ofLeBytes, List.length_cons, valuesIn]
    omega

/-- Zeros at the high end do not count. -/
theorem ofLeBytes_append_zeros (l : List UInt8) (n : Nat) :
    ofLeBytes (l ++ List.replicate n 0) = ofLeBytes l := by
  induction l with
  | nil =>
    induction n with
    | zero => rfl
    | succ n ih =>
      rw [List.nil_append] at ih
      simp [List.replicate_succ, ofLeBytes, ih]
  | cons b rest ih => rw [List.cons_append, ofLeBytes, ih, ofLeBytes]

/-! ## Text -/

/-- Lower-case digits to the base 16, without leading zeros. -/
def hexDigits (n : Nat) : String := String.ofList (Nat.toDigits 16 n)

/-- The written form of an address. -/
def hexText (n : Nat) : String := "0x" ++ hexDigits n

/-- As `hexText`, in upper case and with at least `width` digits. -/
def upperHexText (width n : Nat) : String :=
  "0x" ++ String.ofList (((Nat.toDigits 16 n).map Char.toUpper).leftpad width '0')

/-- As `hexText`, with at least two digits. -/
def hexByteText (n : Nat) : String :=
  if n < 16 then "0x0" ++ hexDigits n else hexText n

end Detouring
