import LineBasic.Console.Command

/-!
# The console

The console drives a machine or a debugger for a user at a terminal. It is a process that asks its
terminal for one thing at a time: `Console.step` gives the next request, and how to go on with the
terminal's reply.
-/
namespace LineBasic

namespace Console

/-- The two places where lines are typed. -/
inductive Channel where
  /-- The command prompt. -/
  | command
  /-- The prompt of an `INPUT`. -/
  | input
deriving DecidableEq, Repr

/-- What comes of reading a line. -/
inductive Typed where
  | line (text : String)
  | interrupt
  | quit
  | eof
deriving DecidableEq, Repr

inductive Request where
  /-- Asks whether the user has pressed the interrupt key since the last time. -/
  | poll
  | write (text : String)
  | read (channel : Channel) (prompt : String)
  /-- Adds a line to the history of a channel. -/
  | remember (channel : Channel) (line : String)
deriving DecidableEq, Repr

/-- What the terminal replies to a request. -/
def Request.Reply : Request → Type
  | poll => Bool
  | write _ => Unit
  | read _ _ => Typed
  | remember _ _ => Unit

/-- What the console drives. -/
inductive Host (V : Type) where
  /-- A machine with a command prompt. -/
  | prompt (m : Machine)
  /-- A machine that runs one program. -/
  | batch (m : Machine)
  /-- A debugger with a command prompt. -/
  | debug (d : Debugger V)

/-- What the console does next. -/
inductive Phase where
  /-- Runs the host. -/
  | run
  /-- Reads an answer to `INPUT`. -/
  | answer (prompt : String)
  /-- Reads a command. -/
  | command
  | finished
deriving DecidableEq, Repr

/-- What is still to be done before the next phase: texts to be written, then a line to be
remembered. -/
inductive Output where
  | write (text : String)
  | remember (channel : Channel) (line : String)
deriving DecidableEq, Repr

namespace Host

variable {V : Type} [Viewer V]

def untilEvent (steps : Nat) : Host V → Event × Host V
  | prompt m => (m.untilEvent steps).map id prompt
  | batch m => (m.untilEvent steps).map id batch
  | debug d => (d.untilEvent steps).map id debug

def submit (text : String) : Host V → Bool × Host V
  | prompt m => (m.submit text).map id prompt
  | batch m => (m.submit text).map id batch
  | debug d => (d.submit text).map id debug

def breakOff : Host V → Host V
  | prompt m => prompt m.breakOff
  | batch m => batch m.breakOff
  | debug d => debug d.breakOff

end Host

end Console

structure Console (V : Type) where
  host : Console.Host V
  phase : Console.Phase := .run
  outbox : List Console.Output := []

namespace Console

variable {V : Type} [Viewer V]

/-- The steps that a host runs before the interrupt key is looked at again. -/
def stride : Nat := 5000

/-- The prompt for commands. -/
def commandPrompt : Host V → String
  | .prompt _ | .batch _ => "> "
  | .debug _ => "(debug) "

/-- The text that reports an error. -/
def errorText (e : Error) : String :=
  bold e.message ++ "\n"

/-- Goes on when the host has come to rest. -/
def settle (host : Host V) : Console V :=
  match host with
  | .prompt _ => { host, phase := .command }
  | .batch _ => { host, phase := .finished }
  | .debug d =>
    if d.active then { host, phase := .command, outbox := (showSlot d d.machine.cursor).map .write }
    else { host, phase := .finished }

/-- Runs the host up to its next event. -/
def proceed (host : Host V) (interrupted : Bool) : Console V :=
  match (if interrupted then host.breakOff else host).untilEvent stride with
  | (.stopped, host) => settle host
  | (.running, host) => { host }
  | (.print text, host) => { host, outbox := [.write text] }
  | (.list text, host) => { host, outbox := [.write (text ++ "\n")] }
  | (.error e, host) => { host, outbox := [.write (errorText e)] }
  | (.input prompt, host) => { host, phase := .answer prompt }

/-- Gives a line to the host. An accepted line goes into the history. -/
def submit (host : Host V) (channel : Channel) (line : String) : Console V :=
  let (ok, host) := host.submit line
  { host, outbox := if ok then [.remember channel line] else [] }

/-- Leaves the prompt. A debugging session is stopped first. -/
def leave (host : Host V) : Console V :=
  match host with
  | .debug d => { host := .debug d.breakOff }
  | host => { host, phase := .finished }

/-- Goes on after an answer to `INPUT` was asked for. -/
def answered (host : Host V) : Typed → Console V
  | .line text => submit host .input text
  | .interrupt => { host := host.breakOff }
  | .quit | .eof => leave host

/-- Goes on after a command was asked for. -/
def commanded (host : Host V) : Typed → Console V
  | .line text =>
    match host with
    | .debug d =>
      let line := Text.trim text.toList
      let (texts, d) := (Command.parse line).perform d
      { host := .debug d
        outbox := texts.map .write ++ if line.isEmpty then [] else [.remember .command text] }
    | host => submit host .command text
  | .interrupt | .quit | .eof => leave host

/-- The next request of the console and how it goes on with the reply. There is none when it has
finished. -/
def step (c : Console V) : Option ((r : Request) × (r.Reply → Console V)) :=
  match c.outbox, c.phase with
  | .write text :: outbox, _ => some ⟨.write text, fun _ => { c with outbox }⟩
  | .remember channel line :: outbox, _ => some ⟨.remember channel line, fun _ => { c with outbox }⟩
  | [], .run => some ⟨.poll, proceed c.host⟩
  | [], .answer prompt => some ⟨.read .input prompt, answered c.host⟩
  | [], .command => some ⟨.read .command (commandPrompt c.host), commanded c.host⟩
  | [], .finished => none

/-! ## The first state -/

/-- Why a program file cannot be read. -/
inductive FileFault where
  | notFound
  | notText
deriving DecidableEq, Repr

/-- The text of a program file, which has to be UTF-8. -/
def readSource : (file : Option ByteArray) → Except FileFault String
  | none => .error .notFound
  | some bytes =>
    match String.fromUTF8? bytes with
    | none => .error .notText
    | some source => .ok source

/-- A console with a command prompt. -/
def interactive (m : Machine) : Console V :=
  { host := .prompt m }

/-- A console that runs the program of a file. -/
def ofSource (m : Machine) (source : String) : Console V :=
  match m.replaceProgram source with
  | .error e => { host := .batch m, phase := .finished, outbox := [.write (errorText e)] }
  | .ok m => { host := .batch m.start }

/-- A console that debugs the program of a file. -/
def debugSource (m : Machine) (viewer : V) (source : String) : Console V :=
  match m.replaceProgram source with
  | .error e => { host := .batch m, phase := .finished, outbox := [.write (errorText e)] }
  | .ok machine =>
    match ({ machine, viewer } : Debugger V).beginSession with
    | (true, d) => { host := .debug d }
    | (false, d) =>
      { host := .debug d, phase := .finished, outbox := [.write "Nothing to debug.\n"] }

end Console

end LineBasic
