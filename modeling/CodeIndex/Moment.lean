import CodeIndex.Text.Basic

set_option autoImplicit false

/-!
# Moments in time

A moment is read from an RFC 3339 date and written in UTC.  The calendar is the proleptic Gregorian one.
A second may be the sixtieth; it is then kept as an overlong fraction of the second before.
-/

namespace CodeIndex

structure Moment where
  /-- Seconds since the beginning of 1970 in UTC. -/
  seconds : Int
  nanos : Nat
  deriving DecidableEq, Repr, Inhabited

namespace Moment

def nanosPerSecond : Nat := 1000000000

def isLeapYear (y : Int) : Bool := y % 4 == 0 && (y % 100 != 0 || y % 400 == 0)

def daysInMonth (y : Int) (m : Nat) : Nat :=
  if m = 2 then (if isLeapYear y then 29 else 28)
  else if m = 4 ∨ m = 6 ∨ m = 9 ∨ m = 11 then 30 else 31

/-- Days from the beginning of 1970, counting years from March. -/
def dayNumber (y : Int) (m d : Nat) : Int :=
  let y := if m ≤ 2 then y - 1 else y
  let era := Int.fdiv y 400
  let yearOfEra := y - era * 400
  let monthFromMarch : Nat := (m + 9) % 12
  let dayOfYear : Nat := (153 * monthFromMarch + 2) / 5 + d - 1
  let dayOfEra := yearOfEra * 365 + Int.fdiv yearOfEra 4 - Int.fdiv yearOfEra 100 + dayOfYear
  era * 146097 + dayOfEra - 719468

/-- Year, month and day of a day number. -/
def dateOf (days : Int) : Int × Nat × Nat :=
  let z := days + 719468
  let era := Int.fdiv z 146097
  let dayOfEra := (z - era * 146097).toNat
  let yearOfEra := (dayOfEra - dayOfEra / 1460 + dayOfEra / 36524 - dayOfEra / 146096) / 365
  let dayOfYear := dayOfEra - (365 * yearOfEra + yearOfEra / 4 - yearOfEra / 100)
  let monthFromMarch := (5 * dayOfYear + 2) / 153
  let d := dayOfYear - (153 * monthFromMarch + 2) / 5 + 1
  let m := if monthFromMarch < 10 then monthFromMarch + 3 else monthFromMarch - 9
  let y : Int := era * 400 + yearOfEra + (if m ≤ 2 then 1 else 0)
  (y, m, d)

def digit? (c : Char) : Option Nat := if '0' ≤ c ∧ c ≤ '9' then some (c.toNat - 48) else none

/-- A number of exactly so many digits. -/
def number? : Nat → Nat → List Char → Option (Nat × List Char)
  | 0, n, rest => some (n, rest)
  | _ + 1, _, [] => none
  | k + 1, n, c :: rest =>
    match digit? c with
    | some d => number? k (n * 10 + d) rest
    | none => none

def expect? (allowed : List Char) : List Char → Option (List Char)
  | [] => none
  | c :: rest => if allowed.contains c then some rest else none

/-- A fraction of a second in nanoseconds; digits after the ninth say nothing. -/
def fraction? : List Char → Option (Nat × List Char)
  | '.' :: rest =>
    let digits := rest.takeWhile fun c => (digit? c).isSome
    if digits.isEmpty then none
    else
      let nine := (digits ++ List.replicate 9 '0').take 9
      (number? 9 0 nine).map fun (n, _) => (n, rest.dropWhile fun c => (digit? c).isSome)
  | rest => some (0, rest)

/-- Seconds by which the local time is ahead of UTC. -/
def offset? : List Char → Option (Int × List Char)
  | [] => none
  | sign :: rest =>
    if sign = 'Z' ∨ sign = 'z' then some (0, rest)
    else do
      let ahead ← if sign = '+' then some true
        else if sign = '-' ∨ sign.toNat = 0x2212 then some false else none
      let (hours, rest) ← number? 2 0 rest
      let rest ← expect? [':'] rest
      let (minutes, rest) ← number? 2 0 rest
      if minutes < 60 ∧ hours < 24 then
        let seconds : Int := (hours * 60 + minutes) * 60
        some (if ahead then seconds else -seconds, rest)
      else none

def ofText? (text : String) : Option Moment := do
  let (y, rest) ← number? 4 0 text.toList
  let rest ← expect? ['-'] rest
  let (m, rest) ← number? 2 0 rest
  let rest ← expect? ['-'] rest
  let (d, rest) ← number? 2 0 rest
  let rest ← expect? ['T', 't', ' '] rest
  let (hour, rest) ← number? 2 0 rest
  let rest ← expect? [':'] rest
  let (minute, rest) ← number? 2 0 rest
  let rest ← expect? [':'] rest
  let (second, rest) ← number? 2 0 rest
  let (nanos, rest) ← fraction? rest
  let (offset, rest) ← offset? rest
  if rest.isEmpty ∧ 1 ≤ m ∧ m ≤ 12 ∧ 1 ≤ d ∧ d ≤ daysInMonth y m ∧ hour < 24 ∧ minute < 60 ∧ second ≤ 60 then
    let ofDay : Int := (hour * 60 + minute) * 60 + min second 59
    some ⟨dayNumber y m d * 86400 + ofDay - offset, if second = 60 then nanos + nanosPerSecond else nanos⟩
  else none

def pad (width n : Nat) : List Char :=
  let digits := Nat.toDigits 10 n
  List.replicate (width - digits.length) '0' ++ digits

def yearText (y : Int) : List Char :=
  if y < 0 then '-' :: pad 4 y.natAbs
  else if y ≤ 9999 then pad 4 y.natAbs
  else '+' :: pad 4 y.natAbs

/-- The date in UTC, to the whole second. -/
def toText (t : Moment) : String :=
  let days := Int.fdiv t.seconds 86400
  let ofDay := (t.seconds - days * 86400).toNat
  let (y, m, d) := dateOf days
  let second := ofDay % 60 + (if nanosPerSecond ≤ t.nanos then 1 else 0)
  String.ofList (yearText y ++ '-' :: pad 2 m ++ '-' :: pad 2 d ++ 'T' :: pad 2 (ofDay / 3600)
    ++ ':' :: pad 2 (ofDay / 60 % 60) ++ ':' :: pad 2 second ++ ['Z'])

def totalNanos (t : Moment) : Int := t.seconds * nanosPerSecond + t.nanos

/-- Not more than so many days before another moment; later moments count as well. -/
def isWithinDays (t now : Moment) (days : Nat) : Bool :=
  now.totalNanos - t.totalNanos ≤ days * 86400 * nanosPerSecond

end Moment

end CodeIndex
