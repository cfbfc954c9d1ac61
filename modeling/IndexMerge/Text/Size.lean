/-!
# Sizes for people

A number of bytes with a unit. The number is first cut to the 53 significant bits of a binary
double, and the result in its unit is given to hundredths; both roundings go to the nearest value,
a tie to the even one. A value just below a unit is not carried into it: 1048575 bytes are
`1024.00 KB`.
-/

namespace IndexMerge

/-- A quotient rounded to the nearest integer, a tie to the even one. -/
def roundDiv (num den : Nat) : Nat :=
  let quotient := num / den
  let rest := num % den
  if den < 2 * rest ∨ (2 * rest = den ∧ quotient % 2 = 1) then quotient + 1 else quotient

/-- The nearest number with at most 53 significant bits. -/
def roundToDouble (n : Nat) : Nat :=
  if n < Nat.pow 2 53 then n
  else
    let unit := Nat.pow 2 (n.log2 - 52)
    roundDiv n unit * unit

/-- The units above the byte with their sizes, largest first. -/
def sizeUnits : List (Nat × String) :=
  [(Nat.pow 1024 4, "TB"), (Nat.pow 1024 3, "GB"), (Nat.pow 1024 2, "MB"), (1024, "KB")]

/-- A number of bytes in the largest unit that it reaches. -/
def formatSize (size : Nat) : String :=
  let size := roundToDouble size
  match sizeUnits.find? (fun (unit, _) => unit ≤ size) with
  | none => s!"{size} B"
  | some (unit, name) =>
    let hundredths := roundDiv (100 * size) unit
    let cents := hundredths % 100
    let pad := if cents < 10 then "0" else ""
    s!"{hundredths / 100}.{pad}{cents} {name}"

end IndexMerge
