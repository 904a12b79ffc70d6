import CommonProject.Options.Library

/-! The command line of `main.c`. -/
namespace CommonProject.Options

def optstring : CString := ['l', ':', 'V', 'h', '?']

def longopts : List LongOption :=
  [⟨['l', 'o', 'g', '-', 'l', 'e', 'v', 'e', 'l'], true, 'l'⟩,
    ⟨['v', 'e', 'r', 's', 'i', 'o', 'n'], false, 'V'⟩, ⟨['h', 'e', 'l', 'p'], false, 'h'⟩]

/-- The static variables, and what has been printed. -/
structure Globals where
  controlMsgLevel : BitVec 32
  target : Option CString
  printed : List String

inductive Outcome
  | returned (err : Int)
  | exited (status : Int)
  deriving DecidableEq, Repr

def Globals.print (g : Globals) (text : String) : Globals := { g with printed := g.printed ++ [text] }

/-- `WARN`, less the place in the source that it prints. -/
def Globals.warn (g : Globals) (text : String) : Globals := g.print ("[WARN] " ++ text ++ "\n")

def versionText (programName : CString) : String :=
  String.ofList programName ++ " version-" ++ "1.0" ++ "\n"

def usageText (programName : CString) : String :=
  "Usage: " ++ String.ofList programName ++ " [OPTIONS] target\n" ++
  "Run program as you wish\n\n" ++
  "Examples:\n" ++
  "Only print error message\n" ++
  "\t" ++ "argv[0]" ++ " -l 2 TARGET\n\n" ++
  "Options:\n" ++
  "-l, --log-level=LEVEL\t\tDisplay printing message according to given LEVEL (0 - debug, " ++
  "1 - verbose, 2 - notice)\n" ++
  "-V, --version\t\t\tDisplay version information\n" ++
  "-h, --help\t\t\tShow how to use\n\n" ++
  "Have a nice day!\n"

/-- The level that an argument sets: the `long` is stored into an `int`. -/
def levelOf (optarg : CString) : BitVec 32 := BitVec.ofInt 32 (strtol optarg).1

def badLevel (optarg : CString) : Bool :=
  let endp := (strtol optarg).2
  endp ≠ [] || endp = optarg || (levelOf optarg).toInt < 0 || (levelOf optarg).toInt > 3

section GetOptions
variable (strdup : CString → Option CString) (programName : CString)

/-- The end of `get_options`: the first argument that is no option is the target. -/
def takeTarget (args : List CString) (g : Globals) : Outcome × Globals :=
  let g := match args with
    | [] => g
    | arg :: _ => { g with target := strdup arg }
  if g.target = none then (.returned (-1), g.warn "No target found!")
  else (.returned 0, g)

/-- The loop of `get_options`, `none` when `fuel` turns do not end it. -/
def optionLoop : Nat → Scanner → Globals → Option (Outcome × Globals)
  | 0, _, _ => none
  | fuel + 1, sc, g =>
    match getoptLong optstring longopts sc with
    | (.done, sc) => some (takeTarget strdup (sc.nonoptions ++ sc.args) g)
    | (.opt 'l' optarg, sc) =>
      let optarg := optarg.getD []
      let g := { g with controlMsgLevel := levelOf optarg }
      if badLevel optarg then
        some (.returned (-1), g.warn ("bad debugging level '" ++ String.ofList optarg ++ "'"))
      else optionLoop fuel sc g
    | (.opt 'V' _, _) => some (.exited 0, g.print (versionText programName))
    | (.opt _ _, _) => some (.exited 0, g.print (usageText programName))

def getOptions (fuel : Nat) (args : List CString) (g : Globals) : Option (Outcome × Globals) :=
  optionLoop strdup programName fuel ⟨args, [], []⟩ g

end GetOptions
end CommonProject.Options
