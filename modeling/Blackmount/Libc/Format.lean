import Blackmount.Lib.CString
import Blackmount.Lib.Text

/-!
# Libc — formatted output

`format` of `stdio.c`, behind `printf` and `snprintf`.  A read behind the end of the format, a write outside the output,
an argument of another type and an overflow of `int` have no defined outcome, `none`.

* `formatLoop_step`: one part of a format writes its text, as far as there is room.
* `format_right_iff`: the output is the longest beginning of the whole text that fits, unless a `%` that ends the format
  or the least `int` comes while there is room.
-/

namespace Blackmount.Libc
open Blackmount.Lib Blackmount.Lib.Text

/-- A character of C. -/
def chr (c : Char) : UInt8 := UInt8.ofNat c.toNat

/-- An argument behind the format. -/
inductive Arg where
  | string (s : CString)
  | int (value : Int32)
  | unsigned (value : UInt32)
  deriving DecidableEq

/-- The array `out`, and how much of it is written. -/
@[ext] structure Out where
  mem : List UInt8
  pos : Nat
  deriving DecidableEq

/-- `out[pos++] = c`. -/
def Out.put (out : Out) (c : UInt8) : Option Out :=
  if out.pos < out.mem.length then some ⟨out.mem.set out.pos c, out.pos + 1⟩ else none

/-- `while (*s && pos < size - 1) out[pos++] = *s++`, and the same for the digits in `buf`. -/
def Out.putWhile (size : Nat) : List UInt8 → Out → Option Out
  | [], out => some out
  | c :: s, out => if out.pos < size - 1 then do putWhile size s (← out.put c) else some out

/-- The places of `buf`. -/
def bufPlaces : Nat := 32

/-- The loop that fills `buf` with the digits of `value`, the last one first; `room` is what is left of `buf`. -/
def fillDigits (base : Nat) (digit : Nat → UInt8) : Nat → Nat → List UInt8 → Option (List UInt8)
  | 0, value, buf => if 0 < value then none else some buf
  | room + 1, value, buf =>
      if 0 < value then fillDigits base digit room (value / base) (buf ++ [digit (value % base)]) else some buf

/-- `d < 10 ? '0' + d : 'a' + (d - 10)`. -/
def hexDigit (d : Nat) : UInt8 := if d < 10 then UInt8.ofNat (48 + d) else UInt8.ofNat (97 + (d - 10))

/-- `buf` after the conversion of `%d`. -/
def decimalBuf (value : Int32) : Option (List UInt8) :=
  if value = 0 then some [digit 0]
  else if value < 0 then
    -- `value = -value`
    if value = Int32.minValue then none
    else do
      let buf ← fillDigits 10 digit bufPlaces (-value).toInt.toNat []
      if buf.length < bufPlaces then some (buf ++ [chr '-']) else none
  else fillDigits 10 digit bufPlaces value.toInt.toNat []

/-- `buf` after the conversion of `%x`. -/
def hexBuf (value : UInt32) : Option (List UInt8) :=
  if value = 0 then some [digit 0] else fillDigits 16 hexDigit bufPlaces value.toNat []

/-- `va_arg(args, const char *)`, `va_arg(args, int)` and `va_arg(args, unsigned int)`. -/
def vaString : List Arg → Option (CString × List Arg)
  | .string s :: args => some (s, args)
  | _ => none

def vaInt : List Arg → Option (Int32 × List Arg)
  | .int value :: args => some (value, args)
  | _ => none

def vaUnsigned : List Arg → Option (UInt32 × List Arg)
  | .unsigned value :: args => some (value, args)
  | _ => none

/-- The conversion `c`: the arguments that are left, and the output. -/
def convert (size : Nat) (c : UInt8) (args : List Arg) (out : Out) : Option (List Arg × Out) :=
  if c = chr 's' then do
    let (s, args) ← vaString args
    return (args, ← out.putWhile size s.chars)
  else if c = chr 'd' then do
    let (value, args) ← vaInt args
    let buf ← decimalBuf value
    return (args, ← out.putWhile size buf.reverse)
  else if c = chr 'x' then do
    let (value, args) ← vaUnsigned args
    let buf ← hexBuf value
    return (args, ← out.putWhile size buf.reverse)
  else if c = chr 'c' then do
    let (value, args) ← vaInt args
    return (args, ← out.put value.toUInt32.toUInt8)
  else if c = chr '%' then do return (args, ← out.put (chr '%'))
  else some (args, out)

/-- The loop, with the rest of the format up to its NUL. -/
def formatLoop (size : Nat) : List UInt8 → List Arg → Out → Option Out
  | [], _, out => some out
  | c :: fmt, args, out =>
      if out.pos < size - 1 then
        if c ≠ chr '%' then do formatLoop size fmt args (← out.put c)
        else
          match fmt with
          -- One `p++` leads to the NUL and the next one behind it.
          | [] => none
          | c :: fmt => do
              let (args, out) ← convert size c args out
              formatLoop size fmt args out
      else some out

/-- `format(out, size, fmt, args)`, with the array that `out` points into: what it returns, and the array. -/
def format (mem : List UInt8) (size : Nat) (fmt : CString) (args : List Arg) : Option (Nat × List UInt8) := do
  let out ← formatLoop size fmt.chars args ⟨mem, 0⟩
  let ended ← out.put 0
  return (out.pos, ended.mem)

/-- `snprintf(out, size, fmt, ...)`. -/
def snprintf (mem : List UInt8) (size : Nat) (fmt : CString) (args : List Arg) : Option (Nat × List UInt8) :=
  format mem size fmt args

/-! ### What the text is -/

/-- The numeral for `n`, from the most significant digit. -/
def hexadecimal (n : Nat) : List UInt8 := if n = 0 then [digit 0] else ((Nat.digits 16 n).map hexDigit).reverse

def signedDecimal (n : Int) : List UInt8 := if n < 0 then chr '-' :: decimal n.natAbs else decimal n.natAbs

/-- A part of a format, with its argument. -/
inductive Item where
  | literal (c : UInt8) (h : c ≠ 0 ∧ c ≠ chr '%')
  | string (s : CString)
  | decimal (value : Int32)
  | hex (value : UInt32)
  | char (value : Int32)
  | percent
  | other (c : UInt8) (h : c ∉ [0, chr 's', chr 'd', chr 'x', chr 'c', chr '%'])

namespace Item

def chars : Item → List UInt8
  | literal c _ => [c]
  | string _ => [chr '%', chr 's']
  | decimal _ => [chr '%', chr 'd']
  | hex _ => [chr '%', chr 'x']
  | char _ => [chr '%', chr 'c']
  | percent => [chr '%', chr '%']
  | other c _ => [chr '%', c]

def args : Item → List Arg
  | string s => [.string s]
  | decimal value => [.int value]
  | hex value => [.unsigned value]
  | char value => [.int value]
  | literal _ _ => []
  | percent => []
  | other _ _ => []

def text : Item → List UInt8
  | literal c _ => [c]
  | string s => s.chars
  | decimal value => signedDecimal value.toInt
  | hex value => hexadecimal value.toNat
  | char value => [value.toUInt32.toUInt8]
  | percent => [chr '%']
  | other _ _ => []

theorem noNul (item : Item) : 0 ∉ item.chars := by
  cases item with
  | literal c h => simpa [chars] using h.1.symm
  | other c h =>
      have hne : (0 : UInt8) ≠ c := fun heq => h (heq ▸ List.mem_cons_self)
      simpa [chars, show (0 : UInt8) ≠ chr '%' by decide] using hne
  | _ => simp [chars, chr]

end Item

/-- A format with its arguments; `trailing` where a `%` ends it. -/
structure Format where
  items : List Item
  trailing : Bool

namespace Format

def chars (f : Format) : List UInt8 := f.items.flatMap Item.chars ++ if f.trailing then [chr '%'] else []
def args (f : Format) : List Arg := f.items.flatMap Item.args
def text (f : Format) : List UInt8 := f.items.flatMap Item.text

theorem noNul (f : Format) : 0 ∉ f.chars := by
  rw [chars, List.mem_append, not_or]
  constructor
  · rw [List.mem_flatMap]
    rintro ⟨item, -, h⟩
    exact item.noNul h
  · split <;> decide

def cstring (f : Format) : CString := ⟨f.chars, f.noNul⟩

end Format

/-- The arguments that the conversion `c` can have are all the same to the format. -/
theorem exists_item {c : UInt8} (hc : c ≠ 0) : ∃ item : Item, item.chars = [chr '%', c] := by
  by_cases hs : c = chr 's'
  · exact ⟨.string ⟨[], List.not_mem_nil⟩, by rw [hs]; rfl⟩
  by_cases hd : c = chr 'd'
  · exact ⟨.decimal 0, by rw [hd]; rfl⟩
  by_cases hx : c = chr 'x'
  · exact ⟨.hex 0, by rw [hx]; rfl⟩
  by_cases hch : c = chr 'c'
  · exact ⟨.char 0, by rw [hch]; rfl⟩
  by_cases hp : c = chr '%'
  · exact ⟨.percent, by rw [hp]; rfl⟩
  exact ⟨.other c (by simp [hc, hs, hd, hx, hch, hp]), rfl⟩

theorem exists_chars : ∀ {s : List UInt8}, 0 ∉ s → ∃ f : Format, f.chars = s
  | [], _ => ⟨⟨[], false⟩, rfl⟩
  | [c], h => by
      by_cases hp : c = chr '%'
      · exact ⟨⟨[], true⟩, by rw [hp]; rfl⟩
      · exact ⟨⟨[.literal c ⟨fun h0 => h (h0 ▸ List.mem_singleton_self c), hp⟩], false⟩, rfl⟩
  | c :: c₁ :: s, h => by
      obtain ⟨hc, htail⟩ := not_or.mp (List.mem_cons.not.mp h)
      by_cases hp : c = chr '%'
      · obtain ⟨hc₁, hs⟩ := not_or.mp (List.mem_cons.not.mp htail)
        obtain ⟨item, hitem⟩ := exists_item (Ne.symm hc₁)
        obtain ⟨f, hf⟩ := exists_chars hs
        refine ⟨⟨item :: f.items, f.trailing⟩, ?_⟩
        rw [Format.chars, List.flatMap_cons, List.append_assoc, hitem, hp]
        exact congrArg _ hf
      · obtain ⟨f, hf⟩ := exists_chars htail
        refine ⟨⟨.literal c ⟨Ne.symm hc, hp⟩ :: f.items, f.trailing⟩, ?_⟩
        rw [Format.chars, List.flatMap_cons, List.append_assoc]
        exact congrArg _ hf

/-- **Every format string is one of these.** -/
theorem exists_format (s : CString) : ∃ f : Format, f.cstring = s := by
  obtain ⟨f, hf⟩ := exists_chars s.noNul
  exact ⟨f, CString.ext hf⟩

/-! ### Numbers -/

theorem fillDigits_eq {base : Nat} {digit : Nat → UInt8} (hb : 1 < base) {room value : Nat} (h : value < base ^ room)
    (buf : List UInt8) :
    fillDigits base digit room value buf = some (buf ++ (Nat.digits base value).map digit) := by
  induction room generalizing value buf with
  | zero =>
      have hzero : value = 0 := by
        rw [Nat.pow_zero] at h
        omega
      rw [fillDigits, hzero, if_neg (by decide), Nat.digits_zero, List.map_nil, List.append_nil]
  | succ room ih =>
      rw [fillDigits]
      split
      · next hpos =>
          rw [ih (Nat.div_lt_of_lt_mul (by rwa [Nat.pow_succ'] at h)), Nat.digits_def' hb hpos, List.map_cons,
            List.append_assoc, List.singleton_append]
      · next hpos =>
          rw [Nat.eq_zero_of_not_pos hpos, Nat.digits_zero, List.map_nil, List.append_nil]

theorem hexBuf_eq (value : UInt32) : ∃ buf, hexBuf value = some buf ∧ buf.reverse = hexadecimal value.toNat := by
  rw [hexBuf, hexadecimal]
  by_cases hz : value = 0
  · rw [if_pos hz, hz]
    exact ⟨_, rfl, rfl⟩
  · have hlt : value.toNat < 16 ^ bufPlaces := Nat.lt_trans value.toNat_lt (by decide)
    have hne : value.toNat ≠ 0 := fun h => hz (UInt32.toNat_inj.mp h)
    rw [if_neg hz, if_neg hne, fillDigits_eq (by decide) hlt]
    exact ⟨_, rfl, by rw [List.nil_append]⟩

theorem toInt_neg {value : Int32} (h : value ≠ Int32.minValue) : (-value).toInt = -value.toInt := by
  have hlt := value.toInt_lt
  have hle := value.le_toInt
  have hne : value.toInt ≠ -2 ^ 31 := fun heq => h (Int32.toInt_inj.mp heq)
  rw [Int32.toInt_neg, Int.bmod_def]
  omega

theorem decimalBuf_eq {value : Int32} (h : value ≠ Int32.minValue) :
    ∃ buf, decimalBuf value = some buf ∧ buf.reverse = signedDecimal value.toInt := by
  have hlt := value.toInt_lt
  have hle := value.le_toInt
  have hsmall {n : Nat} (hn : n ≤ 2 ^ 31) : n < 10 ^ bufPlaces := Nat.lt_of_le_of_lt hn (by decide)
  rw [decimalBuf, signedDecimal]
  by_cases hz : value = 0
  · rw [if_pos hz, hz]
    exact ⟨_, rfl, rfl⟩
  rw [if_neg hz]
  have hne : value.toInt ≠ 0 := fun heq => hz (Int32.toInt_inj.mp heq)
  have habs : value.toInt.natAbs ≠ 0 := Int.natAbs_ne_zero.mpr hne
  have hneg : value < 0 ↔ value.toInt < 0 := Int32.lt_iff_toInt_lt
  by_cases hn : value < 0
  · have hlt0 : value.toInt < 0 := hneg.mp hn
    have hself : (-value).toInt.toNat = value.toInt.natAbs := by
      rw [toInt_neg h]
      omega
    have hlen : ((Nat.digits 10 value.toInt.natAbs).map digit).length < bufPlaces := by
      have : (Nat.digits 10 value.toInt.natAbs).length ≤ 10 :=
        (Nat.digits_length_le_iff (by decide) _).mpr (by omega)
      rw [List.length_map]
      exact Nat.lt_of_le_of_lt this (by decide)
    rw [if_pos hn, if_neg h, hself, fillDigits_eq (by decide) (hsmall (by omega)), List.nil_append, if_pos hlt0,
      decimal, if_neg habs, Option.bind_eq_bind, Option.bind_some, if_pos hlen]
    exact ⟨_, rfl, by rw [List.reverse_append]; rfl⟩
  · have hself : value.toInt.toNat = value.toInt.natAbs := by
      rw [hneg] at hn
      omega
    rw [if_neg hn, hself, fillDigits_eq (by decide) (hsmall (by omega)), List.nil_append, if_neg (hneg.not.mp hn), decimal,
      if_neg habs]
    exact ⟨_, rfl, rfl⟩

theorem decimalBuf_min : decimalBuf Int32.minValue = none := by decide

/-! ### The output -/

section
variable {size : Nat} {mem text : List UInt8} {c : UInt8}

/-- The array with `text` at its start. -/
def filled (mem text : List UInt8) : Out := ⟨text ++ mem.drop text.length, text.length⟩

theorem put_filled (h : text.length < mem.length) : (filled mem text).put c = some (filled mem (text ++ [c])) := by
  rw [Out.put, if_pos]
  · rw [filled, filled, List.set_append_right _ _ (Nat.le_refl _), Nat.sub_self, List.drop_eq_getElem_cons h,
      List.set_cons_zero, List.append_assoc, List.singleton_append, List.length_append, List.length_singleton]
  · rw [filled, List.length_append]
    exact Nat.lt_add_of_pos_right (List.length_drop ▸ Nat.sub_pos_of_lt h)

theorem putWhile_filled (hmem : size ≤ mem.length) {s : List UInt8} (h : text.length ≤ size - 1) :
    (filled mem text).putWhile size s = some (filled mem ((text ++ s).take (size - 1))) := by
  induction s generalizing text with
  | nil => rw [Out.putWhile, List.append_nil, List.take_of_length_le h]
  | cons c s ih =>
      rw [Out.putWhile]
      split
      · next hroom =>
          have hlt : text.length < size - 1 := hroom
          have hnext : (text ++ [c]).length ≤ size - 1 := by
            rw [List.length_append]
            exact hlt
          rw [put_filled (by omega), Option.bind_eq_bind, Option.bind_some, ih hnext, List.append_assoc,
            List.singleton_append]
      · next hroom =>
          have heq : text.length = size - 1 := Nat.le_antisymm h (Nat.not_lt.mp hroom)
          rw [← heq, List.take_left]

theorem formatLoop_full {fmt : List UInt8} {args : List Arg} {out : Out} (h : size - 1 ≤ out.pos) :
    formatLoop size fmt args out = some out := by
  cases fmt with
  | nil => rfl
  | cons c fmt =>
      rw [formatLoop.eq_def]
      simp only [Nat.not_lt.mpr h, if_false]

theorem formatLoop_literal {fmt : List UInt8} {args : List Arg} {out out' : Out} (h : out.pos < size - 1)
    (hc : c ≠ chr '%') (hput : out.put c = some out') :
    formatLoop size (c :: fmt) args out = formatLoop size fmt args out' := by
  rw [formatLoop.eq_def]
  simp only [h, hc, hput, if_true, ne_eq, not_false_eq_true, Option.bind_eq_bind, Option.bind_some]

theorem formatLoop_conversion {fmt : List UInt8} {args args' : List Arg} {out out' : Out} (h : out.pos < size - 1)
    (hconv : convert size c args out = some (args', out')) :
    formatLoop size (chr '%' :: c :: fmt) args out = formatLoop size fmt args' out' := by
  rw [formatLoop.eq_def]
  simp only [h, hconv, if_true, ne_eq, not_true_eq_false, if_false, Option.bind_eq_bind, Option.bind_some]

theorem formatLoop_trailing {args : List Arg} {out : Out} (h : out.pos < size - 1) :
    formatLoop size [chr '%'] args out = none := by
  rw [formatLoop.eq_def]
  simp only [h, if_true, ne_eq, not_true_eq_false, if_false]

theorem formatLoop_min {fmt : List UInt8} {args : List Arg} {out : Out} (h : out.pos < size - 1) :
    formatLoop size (chr '%' :: chr 'd' :: fmt) (.int Int32.minValue :: args) out = none := by
  have hconv : convert size (chr 'd') (.int Int32.minValue :: args) out = none := by
    rw [convert, if_neg (by decide), if_pos rfl, vaInt]
    simp only [Option.bind_eq_bind, Option.bind_some, decimalBuf_min, Option.bind_none]
  rw [formatLoop.eq_def]
  simp only [h, hconv, if_true, ne_eq, not_true_eq_false, if_false, Option.bind_eq_bind, Option.bind_none]

/-- **One part of a format**: its text comes to the output, as far as there is room. -/
theorem formatLoop_step (hmem : size ≤ mem.length) (h : text.length < size - 1) {item : Item}
    (hitem : item ≠ .decimal Int32.minValue) (fmt : List UInt8) (args : List Arg) :
    formatLoop size (item.chars ++ fmt) (item.args ++ args) (filled mem text) =
      formatLoop size fmt args (filled mem ((text ++ item.text).take (size - 1))) := by
  have hput (c : UInt8) : (filled mem text).put c = some (filled mem ((text ++ [c]).take (size - 1))) := by
    rw [put_filled (by omega), List.take_of_length_le]
    rw [List.length_append]
    exact h
  have hwhile (s : List UInt8) := putWhile_filled hmem (s := s) (Nat.le_of_lt h)
  cases item with
  | literal c hc => exact formatLoop_literal h hc.2 (hput c)
  | string s =>
      refine formatLoop_conversion h ?_
      have harg : vaString (Item.args (.string s) ++ args) = some (s, args) := rfl
      rw [convert, if_pos rfl, harg]
      simp only [Option.bind_eq_bind, Option.bind_some, hwhile, Option.pure_def, Item.text]
  | decimal value =>
      obtain ⟨buf, hbuf, hrev⟩ := decimalBuf_eq fun heq => hitem (heq ▸ rfl)
      refine formatLoop_conversion h ?_
      have harg : vaInt (Item.args (.decimal value) ++ args) = some (value, args) := rfl
      rw [convert, if_neg (by decide), if_pos rfl, harg]
      simp only [Option.bind_eq_bind, Option.bind_some, hbuf, hrev, hwhile, Option.pure_def, Item.text]
  | hex value =>
      obtain ⟨buf, hbuf, hrev⟩ := hexBuf_eq value
      refine formatLoop_conversion h ?_
      have harg : vaUnsigned (Item.args (.hex value) ++ args) = some (value, args) := rfl
      rw [convert, if_neg (by decide), if_neg (by decide), if_pos rfl, harg]
      simp only [Option.bind_eq_bind, Option.bind_some, hbuf, hrev, hwhile, Option.pure_def, Item.text]
  | char value =>
      refine formatLoop_conversion h ?_
      have harg : vaInt (Item.args (.char value) ++ args) = some (value, args) := rfl
      rw [convert, if_neg (by decide), if_neg (by decide), if_neg (by decide), if_pos rfl, harg]
      simp only [Option.bind_eq_bind, Option.bind_some, hput, Option.pure_def, Item.text]
  | percent =>
      refine formatLoop_conversion h ?_
      rw [convert, if_neg (by decide), if_neg (by decide), if_neg (by decide), if_neg (by decide), if_pos rfl, hput]
      rfl
  | other c hc =>
      have hshort : (text ++ []).take (size - 1) = text := by
        rw [List.append_nil, List.take_of_length_le (Nat.le_of_lt h)]
      refine formatLoop_conversion h ?_
      simp only [List.mem_cons, List.not_mem_nil, or_false, not_or] at hc
      obtain ⟨-, hs, hd, hx, hch, hp⟩ := hc
      rw [convert, if_neg hs, if_neg hd, if_neg hx, if_neg hch, if_neg hp, Item.text, hshort]
      rfl

/-- Nowhere while there is room behind `n` bytes does a `%` end the format, and nowhere is the least `int` written. -/
def Defined (size : Nat) (items : List Item) (trailing : Bool) (n : Nat) : Prop :=
  (trailing → size - 1 ≤ n + (items.flatMap Item.text).length) ∧
    ∀ before after, items = before ++ .decimal Int32.minValue :: after →
      size - 1 ≤ n + (before.flatMap Item.text).length

theorem defined_of_le {items : List Item} {trailing : Bool} {n : Nat} (h : size - 1 ≤ n) :
    Defined size items trailing n :=
  ⟨fun _ => Nat.le_add_right_of_le h, fun _ _ _ => Nat.le_add_right_of_le h⟩

theorem defined_cons {item : Item} {items : List Item} {trailing : Bool} (hitem : item ≠ .decimal Int32.minValue) :
    Defined size (item :: items) trailing text.length ↔
      Defined size items trailing ((text ++ item.text).take (size - 1)).length := by
  rw [Defined, Defined, List.length_take, List.length_append, List.flatMap_cons, List.length_append]
  refine and_congr (forall_congr' fun _ => by omega) ⟨fun h before after heq => ?_, fun h before after heq => ?_⟩
  · have := h (item :: before) after (by rw [heq]; rfl)
    rw [List.flatMap_cons, List.length_append] at this
    omega
  · cases before with
    | nil => exact absurd (List.cons.inj heq).1 hitem
    | cons item' before =>
        obtain ⟨rfl, hrest⟩ := List.cons.inj heq
        have := h before after hrest
        rw [List.flatMap_cons, List.length_append]
        omega

theorem take_take_append (n : Nat) (a b : List UInt8) : (a.take n ++ b).take n = (a ++ b).take n := by
  rw [List.take_append, List.take_append, List.take_take, Nat.min_self, List.length_take]
  congr 2
  omega

/-- **The whole loop**, behind the text that is written. -/
theorem formatLoop_eq (hmem : size ≤ mem.length) (text : List UInt8) (items : List Item) (trailing : Bool)
    (extra : List Arg) (h : text.length ≤ size - 1) :
    (Defined size items trailing text.length →
      formatLoop size (Format.chars ⟨items, trailing⟩) (items.flatMap Item.args ++ extra) (filled mem text) =
        some (filled mem ((text ++ items.flatMap Item.text).take (size - 1)))) ∧
    (¬ Defined size items trailing text.length →
      formatLoop size (Format.chars ⟨items, trailing⟩) (items.flatMap Item.args ++ extra) (filled mem text) = none) := by
  induction items generalizing text with
  | nil =>
      cases trailing with
      | false =>
          have hdef : Defined size [] false text.length := ⟨nofun, fun before _ heq => by cases before <;> cases heq⟩
          refine ⟨fun _ => ?_, fun hno => absurd hdef hno⟩
          rw [List.flatMap_nil, List.flatMap_nil, List.append_nil, List.take_of_length_le h]
          rfl
      | true =>
          rcases Nat.lt_or_eq_of_le h with hlt | heq
          · refine ⟨fun hdef => ?_, fun _ => formatLoop_trailing hlt⟩
            exact absurd (hdef.1 rfl) (Nat.not_le.mpr hlt)
          · refine ⟨fun _ => ?_, fun hno => absurd (defined_of_le (Nat.le_of_eq heq.symm)) hno⟩
            rw [formatLoop_full (Nat.le_of_eq heq.symm), ← heq, List.take_left]
  | cons item items ih =>
      rcases Nat.lt_or_eq_of_le h with hlt | heq
      · have hchars : Format.chars ⟨item :: items, trailing⟩ = item.chars ++ Format.chars ⟨items, trailing⟩ := by
          rw [Format.chars, Format.chars, List.flatMap_cons, List.append_assoc]
        rw [hchars, List.flatMap_cons, List.append_assoc, List.flatMap_cons]
        by_cases hmin : item = .decimal Int32.minValue
        · subst hmin
          refine ⟨fun hdef => ?_, fun _ => formatLoop_min hlt⟩
          exact absurd (hdef.2 [] items rfl) (Nat.not_le.mpr hlt)
        · rw [formatLoop_step hmem hlt hmin, defined_cons hmin, ← List.append_assoc,
            ← take_take_append (size - 1) (text ++ item.text)]
          exact ih _ (List.length_take_le _ _)
      · refine ⟨fun _ => ?_, fun hno => absurd (defined_of_le (Nat.le_of_eq heq.symm)) hno⟩
        rw [formatLoop_full (Nat.le_of_eq heq.symm), ← heq, List.take_left]

variable {f : Format}

theorem format_some (extra : List Arg) (hsize : 1 ≤ size) (hmem : size ≤ mem.length) (h : Defined size f.items f.trailing 0) :
    format mem size f.cstring (f.args ++ extra) =
      some ((f.text.take (size - 1)).length,
        f.text.take (size - 1) ++ 0 :: mem.drop ((f.text.take (size - 1)).length + 1)) := by
  have hloop : formatLoop size f.cstring.chars (f.args ++ extra) ⟨mem, 0⟩ =
      some (filled mem (f.text.take (size - 1))) :=
    (formatLoop_eq hmem [] f.items f.trailing extra (Nat.zero_le _)).1 h
  have hfits : (f.text.take (size - 1)).length < mem.length := by
    have := List.length_take_le (size - 1) f.text
    omega
  rw [format, hloop, Option.bind_eq_bind, Option.bind_some, put_filled hfits, Option.bind_some, Option.pure_def, filled,
    filled, List.length_append, List.append_assoc]
  rfl

theorem format_none (extra : List Arg) (hmem : size ≤ mem.length) (h : ¬ Defined size f.items f.trailing 0) :
    format mem size f.cstring (f.args ++ extra) = none := by
  have hloop : formatLoop size f.cstring.chars (f.args ++ extra) ⟨mem, 0⟩ = none :=
    (formatLoop_eq hmem [] f.items f.trailing extra (Nat.zero_le _)).2 h
  rw [format, hloop]
  rfl

end

/-- The call returns the length of the longest beginning of the text that fits into `size - 1` bytes, and leaves it in
the array, with a NUL behind it and nothing else changed. -/
def FormatRight (f : Format) (extra : List Arg) (size : Nat) (mem : List UInt8) : Prop :=
  let text := f.text.take (size - 1)
  format mem size f.cstring (f.args ++ extra) = some (text.length, text ++ 0 :: mem.drop (text.length + 1))

/-- **When a format is written right**, for every format, its arguments, and an array of `size` bytes or more. -/
theorem format_right_iff (f : Format) (extra : List Arg) (size : Nat) (mem : List UInt8) (hsize : 1 ≤ size)
    (hmem : size ≤ mem.length) :
    FormatRight f extra size mem ↔
      (f.trailing → size - 1 ≤ f.text.length) ∧
        ∀ before after, f.items = before ++ .decimal Int32.minValue :: after →
          size - 1 ≤ (before.flatMap Item.text).length := by
  have hdef : Defined size f.items f.trailing 0 ↔ (f.trailing → size - 1 ≤ f.text.length) ∧
      ∀ before after, f.items = before ++ .decimal Int32.minValue :: after →
        size - 1 ≤ (before.flatMap Item.text).length := by
    simp only [Defined, Format.text, Nat.zero_add]
  rw [← hdef]
  refine ⟨fun h => ?_, format_some extra hsize hmem⟩
  by_contra hno
  rw [FormatRight, format_none extra hmem hno] at h
  cases h

/-- `%s` into eight bytes. -/
theorem format_right_string :
    FormatRight ⟨[.string ⟨ascii "usr/bin/", by decide⟩], false⟩ [] 8 (List.replicate 8 0) :=
  (format_right_iff _ [] 8 _ (by decide) (by decide)).mpr
    ⟨nofun, fun before after h => by
      have hmin : Item.decimal Int32.minValue ∈ before ++ .decimal Int32.minValue :: after :=
        List.mem_append_right _ List.mem_cons_self
      rw [← h] at hmin
      cases List.mem_singleton.mp hmin⟩

/-- The formats `"%d"` for the least `int`, and `"%"`. -/
theorem format_not_right :
    ¬ FormatRight ⟨[.decimal Int32.minValue], false⟩ [] 16 (List.replicate 16 0) ∧
      ¬ FormatRight ⟨[], true⟩ [] 16 (List.replicate 16 0) := by
  have hmin : format (List.replicate 16 0) 16 (Format.cstring ⟨[.decimal Int32.minValue], false⟩)
      [.int Int32.minValue] = none := by decide
  have htrailing : format (List.replicate 16 0) 16 (Format.cstring ⟨[], true⟩) [] = none := by decide
  exact ⟨fun h => (by cases hmin.symm.trans h), fun h => (by cases htrailing.symm.trans h)⟩

end Blackmount.Libc
