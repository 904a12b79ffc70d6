import CommonProject.Foundations.Numerals

/-! What `main.c` uses of the C library: `strtol`, and `getopt_long` on an argument vector that it
may permute. -/
namespace CommonProject.Options
open Foundations

/-- A string: its characters before the terminating NUL. A pointer into it is the rest from there. -/
abbrev CString := List Char

def longMin : Int := -9223372036854775808

def longMax : Int := 9223372036854775807

/-- `strtol(nptr, &endp, 0)`: the value and `endp`. -/
def strtol (nptr : CString) : Int × CString :=
  match Numerals.scan nptr with
  | some (v, endp) => (max longMin (min v longMax), endp)
  | none => (0, nptr)

/-- `struct option`, with `flag` null. -/
structure LongOption where
  name : CString
  hasArg : Bool
  val : Char
  deriving DecidableEq, Repr

/-- Where `getopt_long` is: the arguments it has not come to, those it passed over since they are no
options, and what is left of an argument with several short options. -/
structure Scanner where
  args : List CString
  nonoptions : List CString
  nextchar : CString
  deriving DecidableEq, Repr

/-- What `getopt_long` returns: -1, or an option and `optarg`. -/
inductive Found
  | done
  | opt (c : Char) (optarg : Option CString)
  deriving DecidableEq, Repr

/-- Whether `c` is a short option, and whether it has an argument. -/
def shortOption (c : Char) : CString → Option Bool
  | [] => none
  | d :: optstring =>
    if d = c ∧ c ≠ ':' then some (optstring.head? = some ':') else shortOption c optstring

/-- The argument of an option `c`: what is attached to it, else the next one there is. -/
def takeArg (c : Char) (attached : Option CString) (sc : Scanner) : Found × Scanner :=
  match attached, sc.args with
  | some arg, _ => (.opt c arg, sc)
  | none, arg :: args => (.opt c arg, { sc with args })
  | none, [] => (.opt '?' none, sc)

def getShort (optstring : CString) (sc : Scanner) : CString → Found × Scanner
  | [] => (.opt '?' none, sc)
  | c :: rest =>
    match shortOption c optstring with
    | none => (.opt '?' none, { sc with nextchar := rest })
    | some false => (.opt c none, { sc with nextchar := rest })
    | some true => takeArg c (if rest = [] then none else some rest) { sc with nextchar := [] }

/-- A long option is given by its name or by the front of no other's name. -/
def longOption (name : CString) (longopts : List LongOption) : Option LongOption :=
  match longopts.find? (·.name = name), longopts.filter (name.isPrefixOf ·.name) with
  | some o, _ => some o
  | none, [o] => some o
  | none, _ => none

/-- The long option in `word`, which is its name, or its name, `=` and its argument. -/
def getLong (longopts : List LongOption) (sc : Scanner) (word : CString) : Found × Scanner :=
  let name := word.takeWhile (· ≠ '=')
  let value := (word.dropWhile (· ≠ '=')).tail?
  match longOption name longopts with
  | none => (.opt '?' none, sc)
  | some o =>
    if o.hasArg then takeArg o.val value sc
    else if value = none then (.opt o.val none, sc)
    else (.opt '?' none, sc)

def getNext (optstring : CString) (longopts : List LongOption) (nonoptions : List CString) :
    List CString → Found × Scanner
  | [] => (.done, ⟨[], nonoptions, []⟩)
  | ('-' :: '-' :: []) :: args => (.done, ⟨[], nonoptions ++ args, []⟩)
  | ('-' :: '-' :: word) :: args => getLong longopts ⟨args, nonoptions, []⟩ word
  | ('-' :: c :: chars) :: args => getShort optstring ⟨args, nonoptions, []⟩ (c :: chars)
  | arg :: args => getNext optstring longopts (nonoptions ++ [arg]) args

def getoptLong (optstring : CString) (longopts : List LongOption) (sc : Scanner) : Found × Scanner :=
  if sc.nextchar = [] then getNext optstring longopts sc.nonoptions sc.args
  else getShort optstring sc sc.nextchar

end CommonProject.Options
