/-
  Kremlin.Instrument.Region — a static region as a symbol, and as a line.

  `Region.formatToString` writes a region into the name of a global variable; the
  link step takes the line that `nm` prints for it and rewrites it to fields
  (`sregionsLine`).
-/
import Mathlib.Data.List.DropRight
import Kremlin.Library.DelimitedText
import Mathlib.Data.List.Infix

namespace Kremlin.Instrument

open Kremlin.Library

/-! ## §1. Regions. -/

/-- `Region::RegionType`. -/
inductive Region.RegionType where
  | func
  | loop
  | loop_body
  deriving DecidableEq

/-- `REGION_NAME` of the three kinds of region. -/
def Region.RegionType.REGION_NAME : RegionType → List Char
  | .func => ['f', 'u', 'n', 'c']
  | .loop => ['l', 'o', 'o', 'p']
  | .loop_body => ['l', 'o', 'o', 'p', '_', 'b', 'o', 'd', 'y']

/-- `Region`: what its getters return. -/
structure Region where
  id : BitVec 64
  regionType : Region.RegionType
  fileName : List Char
  funcName : List Char
  startLine : ℕ
  endLine : ℕ
  deriving DecidableEq

/-! ## §2. The region of a function. -/

/-- `DISubprogram`. -/
structure DISubprogram where
  function : ℕ
  filename : List Char
  displayName : List Char
  lineNumber : ℕ

/-- `rawName.substr(substr_start)`, from behind the last `/`. -/
def baseName (rawName : List Char) : List Char := rawName.rtakeWhile (· ≠ '/')

/-- A destructor's name says so. -/
def funcNameOf (displayName : List Char) : List Char :=
  if 1 < displayName.length ∧ displayName.head? = some '~' then
    ['d', 'e', 's', 't', 'r', 'u', 'c', 't', 'o', 'r', '_'] ++ displayName.drop 1
  else displayName

/-- One round of the loop of `FuncRegion::FuncRegion` over the subprograms; `none`
when `assert(funcName.find('/') == std::string::npos)` fails. -/
def readSubprogram (func : ℕ) (r : Region) (dis : DISubprogram) : Option Region :=
  if dis.function = func then
    if '/' ∈ funcNameOf dis.displayName then none
    else some { r with fileName := baseName dis.filename, funcName := funcNameOf dis.displayName,
                       startLine := dis.lineNumber, endLine := dis.lineNumber }
  else some r

/-- `FuncRegion::FuncRegion`; `startLine` is what the field holds before it is set. -/
def FuncRegion (id : BitVec 64) (func : ℕ) (subprograms : List DISubprogram)
    (compileUnit : List Char) (startLine : ℕ) : Option Region := do
  let r ← subprograms.foldlM (readSubprogram func)
    { id, regionType := .func, fileName := [], funcName := [], startLine, endLine := startLine }
  some (if r.fileName = [] then { r with fileName := baseName compileUnit } else r)

/-! ## §3. The symbol. -/

/-- `"_krem_"` -/
def DELIMITER : List Char := ['_', 'k', 'r', 'e', 'm', '_']

/-- `"krem_prefix"` -/
def PREFIX : List Char := ['k', 'r', 'e', 'm', '_', 'p', 'r', 'e', 'f', 'i', 'x']

/-- `std::setw(16) << std::hex`, filled with `0`. -/
def hex16 (x : BitVec 64) : List Char := (Nat.toDigits 16 x.toNat).leftpad 16 '0'

/-- `Region::formatToString`. -/
def Region.formatToString (r : Region) : List Char :=
  PREFIX ++ hex16 r.id ++ DELIMITER ++
    r.regionType.REGION_NAME ++ DELIMITER ++
    r.fileName ++ DELIMITER ++
    r.funcName ++ DELIMITER ++
    Nat.toDigits 10 r.startLine ++ DELIMITER ++
    Nat.toDigits 10 r.endLine ++ DELIMITER

/-! ## §4. The link step. -/

/-- The line of `nm` for a symbol. -/
def nmLine (address : BitVec 64) (type : Char) (symbol : List Char) : List Char :=
  hex16 address ++ ' ' :: type :: ' ' :: symbol

/-- `grep "_krem_" | perl -p -i -e 's/^.*krem_prefix//g; s/_krem_/\t/g'` on a line;
`none` when `grep` drops it. -/
def sregionsLine (line : List Char) : Option (List Char) :=
  if DELIMITER <:+: line then
    some (replaceAll DELIMITER ['\t'] ((afterLast PREFIX line).getD line))
  else none

end Kremlin.Instrument
