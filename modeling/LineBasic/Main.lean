import LineBasic.Console.Basic
import LineBasic.Viewer.Recorder

/-!
# The command line

Without a file a command prompt starts. `--debug` steps through the file, `--viewer PATH` writes
what a viewer is told to a file or pipe, and `--seed N` makes `RND` repeatable.
-/
namespace LineBasic.Terminal

structure Options where
  file : Option String := none
  debug : Bool := false
  viewer : Option String := none
  seed : Option Nat := none

def usage : String :=
  "usage: linebasic [--seed N] [FILE]\n       linebasic --debug [--viewer PATH] [--seed N] FILE"

/-- Reads the arguments. Debugging needs a file, and a viewer needs debugging. -/
def Options.parse : List String → Options → Option Options
  | [], o =>
    if (o.debug && o.file.isNone) || (o.viewer.isSome && !o.debug) then none else some o
  | "--debug" :: args, o => parse args { o with debug := true }
  | "--viewer" :: path :: args, o => parse args { o with viewer := some path }
  | "--seed" :: n :: args, o => do parse args { o with seed := some (← n.toNat?) }
  | file :: args, o =>
    if file.startsWith "-" || o.file.isSome then none else parse args { o with file := some file }

/-- The standard streams, and where the messages for a viewer go. -/
structure Streams where
  input : IO.FS.Stream
  output : IO.FS.Stream
  viewer : Option IO.FS.Handle

/-- Does what the console asks for. The interrupt key ends the process, so it is never found
pressed. -/
def perform (s : Streams) : (r : Console.Request) → IO r.Reply
  | .poll => return false
  | .write text => do
    s.output.putStr text
    s.output.flush
  | .read _ prompt => do
    s.output.putStr prompt
    s.output.flush
    let line ← s.input.getLine
    return if line.isEmpty then .eof else .line (line.dropEndWhile (· = '\n')).toString
  | .remember _ _ => return ()

/-- Takes the messages that the console has for its viewer. -/
def messages (c : Console Recorder) : List Message × Console Recorder :=
  match c.host with
  | .debug d =>
    let (msgs, viewer) := d.viewer.take
    (msgs, { c with host := .debug { d with viewer } })
  | _ => ([], c)

def tellViewer (s : Streams) (msgs : List Message) : IO Unit := do
  if let some viewer := s.viewer then
    for msg in msgs do
      viewer.putStrLn msg.render
    viewer.flush

partial def converse (s : Streams) (c : Console Recorder) : IO Unit := do
  let (msgs, c) := messages c
  tellViewer s msgs
  match c.step with
  | none => return ()
  | some ⟨r, next⟩ => converse s (next (← perform s r))

/-- The bytes of a file, if it can be opened. -/
def fileBytes (path : String) : IO (Option ByteArray) :=
  try some <$> IO.FS.readBinFile path catch _ => return none

def faultText : Console.FileFault → String
  | .notFound => "no such file"
  | .notText => "the file is not UTF-8 text"

/-- The seed that the options give, or else one from the clock. -/
def seed (o : Options) : IO UInt64 :=
  match o.seed with
  | some n => return n.toUInt64
  | none => return (← IO.monoNanosNow).toUInt64

def streams (o : Options) : IO Streams := do
  let input ← IO.getStdin
  let output ← IO.getStdout
  match o.viewer with
  | none => return { input, output, viewer := none }
  | some path => return { input, output, viewer := some (← IO.FS.Handle.mk path .write) }

/-- The console that the options ask for. -/
def console (o : Options) (m : Machine) : IO (Except Console.FileFault (Console Recorder)) :=
  match o.file with
  | none => return .ok (Console.interactive m)
  | some path => do
    match Console.readSource (← fileBytes path) with
    | .error e => return .error e
    | .ok source =>
      match o.debug with
      | true => return .ok (Console.debugSource m {} source)
      | false => return .ok (Console.ofSource m source)

/-- The exit code is 1 if the file cannot be read. -/
def exitCode : Option Console.FileFault → UInt32
  | none => 0
  | some _ => 1

def start (o : Options) : IO UInt32 := do
  match ← console o (.ofSeed (← seed o)) with
  | .ok c =>
    converse (← streams o) c
    return exitCode none
  | .error e =>
    IO.eprintln ("Error: " ++ faultText e)
    return exitCode (some e)

end LineBasic.Terminal

def main (args : List String) : IO UInt32 :=
  match LineBasic.Terminal.Options.parse args {} with
  | some o => LineBasic.Terminal.start o
  | none => do
    IO.eprintln LineBasic.Terminal.usage
    return 2
