import Countermand.Toml.Basic

/-! Numbers and dates of TOML. They are only recognised: what follows them is returned. -/
namespace Countermand.Toml

/-- Digits of some kind, with single underscores between them, which are left out. -/
def readDigits (isDigit : Char → Bool) (t : Text) : Front Text t :=
  match t with
  | [] => none
  | c :: rest =>
    let inRun (c : Char) : Bool := isDigit c || c == '_'
    let run := c :: rest.takeWhile inRun
    if isDigit c && (Text.splitOn '_' run).all (!·.isEmpty) then
      some (run.filter (· ≠ '_'), (Shorter.tail c rest).widen (skipWhile inRun rest))
    else none

def digitsValueIn (base : Nat) (digits : Text) : Nat :=
  digits.foldl (fun n c => base * n + (if c.isDigit then c.toNat - '0'.toNat
    else c.toLower.toNat - 'a'.toNat + 10)) 0

def isHexDigit (c : Char) : Bool :=
  c.isDigit || ('a' ≤ c && c ≤ 'f') || ('A' ≤ c && c ≤ 'F')

/-- Integers have 64 bits with a sign. -/
def integerLimit : Nat := 0x8000000000000000

def readBased (base : Nat) (isDigit : Char → Bool) (t : Text) : Option (Shorter t) := do
  let (digits, rest) ← readDigits isDigit t
  if digitsValueIn base digits < integerLimit then some rest else none

/-- The whole part of a decimal number: no zero stands before another digit. -/
def readWhole (t : Text) : Front Text t :=
  match t with
  | '0' :: rest => some (['0'], .tail '0' rest)
  | t => readDigits Char.isDigit t

def skipSign (t : Text) : Remainder t :=
  match t with
  | '+' :: rest => (Shorter.tail '+' rest).remainder
  | '-' :: rest => (Shorter.tail '-' rest).remainder
  | t => .all t

def readExponent (t : Text) : Front Text t := do
  let afterSign := skipSign t
  let (digits, rest) ← readDigits Char.isDigit afterSign.1
  return (if t.head? = some '-' then '-' :: digits else digits, afterSign.shorten rest)

/-- A decimal number with an exponent; `fraction` of its digits stand after the point. -/
structure Decimal where
  digits : Text
  fraction : Nat
  exponent : Text

namespace Decimal

/-- Whether a decimal number lies below the least one that rounds beyond the largest double. -/
def isFinite (d : Decimal) : Bool :=
  let mantissa := digitsValueIn 10 d.digits
  let (negative, size) := match d.exponent with
    | '-' :: ds => (true, digitsValueIn 10 ds)
    | ds => (false, digitsValueIn 10 ds)
  let shift : Int := (if negative then -(size : Int) else size) - d.fraction
  let limit := Nat.pow 2 1024 - Nat.pow 2 970
  if mantissa = 0 ∨ shift < 0 ∧ d.digits.length < 300 then true
  else if 400 < shift then false
  else if 0 ≤ shift then mantissa * Nat.pow 10 shift.toNat < limit
  else shift < -(d.digits.length : Int) || mantissa < limit * Nat.pow 10 (-shift).toNat

end Decimal

def readOptionalExponent (t : Text) : Option (Option Text × Remainder t) :=
  match (readSymbol 'e' t).orElse fun _ => readSymbol 'E' t with
  | some (_, afterLetter) =>
    (readExponent afterLetter.1).map fun (exponent, rest) =>
      (some exponent, (afterLetter.shorten rest).remainder)
  | none => some (none, .all t)

def readOptionalFraction (t : Text) : Option (Option Text × Remainder t) :=
  match readSymbol '.' t with
  | some (_, afterDot) =>
    (readDigits Char.isDigit afterDot.1).map fun (digits, rest) =>
      (some digits, (afterDot.shorten rest).remainder)
  | none => some (none, .all t)

/-- A decimal number: an integer, or a float with a fraction or an exponent. A negative float has
no limit. -/
def readDecimal (t : Text) : Option (Shorter t) := do
  let negative := t.head? == some '-'
  let afterSign := skipSign t
  let (whole, afterWhole) ← readWhole afterSign.1
  let (fraction, afterFraction) ← readOptionalFraction afterWhole.1
  let (exponent, rest) ← readOptionalExponent afterFraction.1
  let fits : Bool := match fraction, exponent with
    | none, none =>
      digitsValueIn 10 whole < integerLimit + (if negative then 1 else 0)
    | fraction, exponent =>
      let decimals := fraction.getD []
      negative || Decimal.isFinite ⟨whole ++ decimals, decimals.length, exponent.getD []⟩
  if fits then some (afterSign.shorten (afterWhole.widen (afterFraction.widen rest))) else none

def readSpecial (t : Text) : Option (Shorter t) :=
  let afterSign := skipSign t
  ((readKeyword "inf".toList afterSign.1).orElse fun _ =>
    readKeyword "nan".toList afterSign.1).map afterSign.shorten

def readNumber (t : Text) : Option (Shorter t) :=
  let based (after : Shorter t) (base : Nat) (isDigit : Char → Bool) : Option (Shorter t) :=
    (readBased base isDigit after.1).map after.shorten
  match readKeyword "0x".toList t, readKeyword "0o".toList t, readKeyword "0b".toList t with
  | some after, _, _ => based after 16 isHexDigit
  | _, some after, _ => based after 8 fun c => '0' ≤ c && c ≤ '7'
  | _, _, some after => based after 2 fun c => c == '0' || c == '1'
  | none, none, none => (readSpecial t).orElse fun _ => readDecimal t

/-- A number of exactly so many digits, of which there is at least one. -/
def readFixed (digits : Nat) (t : Text) : Front Nat t :=
  match digits, t with
  | further + 1, c :: rest =>
    let front := c :: rest.take further
    if front.length = further + 1 ∧ front.all Char.isDigit then
      some (digitsValueIn 10 front, (Shorter.tail c rest).widen (.drop further rest))
    else none
  | _, _ => none

def isLeapYear (year : Nat) : Bool :=
  year % 4 == 0 && (year % 100 != 0 || year % 400 == 0)

def daysIn (year month : Nat) : Nat :=
  if month = 2 then (if isLeapYear year then 29 else 28)
  else if month = 4 ∨ month = 6 ∨ month = 9 ∨ month = 11 then 30
  else 31

def readFixedAfter (mark : Char) (digits : Nat) (t : Text) : Front Nat t := do
  let (_, afterMark) ← readSymbol mark t
  let (n, rest) ← readFixed digits afterMark.1
  return (n, afterMark.shorten rest)

def readDay (t : Text) : Option (Shorter t) := do
  let (year, afterYear) ← readFixed 4 t
  let (month, afterMonth) ← readFixedAfter '-' 2 afterYear.1
  let (day, rest) ← readFixedAfter '-' 2 afterMonth.1
  if 1 ≤ month ∧ month ≤ 12 ∧ 1 ≤ day ∧ day ≤ daysIn year month then
    some (afterYear.shorten (afterMonth.shorten rest))
  else none

def readHourMinute (t : Text) : Option (Shorter t) := do
  let (hour, afterHour) ← readFixed 2 t
  let (minute, rest) ← readFixedAfter ':' 2 afterHour.1
  if hour ≤ 23 ∧ minute ≤ 59 then some (afterHour.shorten rest) else none

def readSecondFraction (t : Text) : Option (Remainder t) :=
  match readSymbol '.' t with
  | none => some (.all t)
  | some (_, afterDot) =>
    if (afterDot.1.head?.map Char.isDigit).getD false then
      some (afterDot.remainder.widen (skipWhile Char.isDigit afterDot.1))
    else none

/-- A time of day; a second may be a leap second. -/
def readTime (t : Text) : Option (Shorter t) := do
  let afterMinute ← readHourMinute t
  let (second, afterSecond) ← readFixedAfter ':' 2 afterMinute.1
  if second ≤ 60 then
    (readSecondFraction afterSecond.1).map fun rest => afterMinute.shorten (afterSecond.widen rest)
  else none

/-- The distance of a time from universal time, if it is given; a sign must have one behind it. -/
def readOffset (t : Text) : Option (Remainder t) :=
  match t with
  | [] => some (.all [])
  | c :: rest =>
    let after := Shorter.tail c rest
    if c = 'Z' ∨ c = 'z' then some after.remainder
    else if c = '+' ∨ c = '-' then
      (readHourMinute rest).map fun r => (after.shorten r).remainder
    else some (.all (c :: rest))

/-- Whether a time starts here that must be read to its end. -/
def startsTime (t : Text) : Bool :=
  match readFixed 2 t with
  | some (hour, ⟨':' :: _, _⟩) => hour ≤ 23
  | _ => false

def readTimeOfDay (t : Text) : Option (Remainder t) :=
  match t with
  | [] => some (.all [])
  | c :: rest =>
    if (c = 'T' ∨ c = 't' ∨ c = ' ') ∧ startsTime rest then do
      let afterTime ← readTime rest
      let afterOffset ← readOffset afterTime.1
      return ((Shorter.tail c rest).shorten (afterTime.widen afterOffset)).remainder
    else some (.all (c :: rest))

/-- A date, a time, or both with an offset. -/
def readDate (t : Text) : Option (Shorter t) :=
  if startsTime t then readTime t
  else do
    let afterDay ← readDay t
    return afterDay.widen (← readTimeOfDay afterDay.1)

/-- Whether a date or a time starts here and nothing else can be meant. -/
def startsDate (t : Text) : Bool :=
  startsTime t || match readFixed 4 t with
    | some (_, ⟨'-' :: _, _⟩) => true
    | _ => false

end Countermand.Toml
