import LineBasic.Error

/-!
# Viewers

A viewer shows the program that is being debugged. It is told of changes by messages, which name a
line by its slot, or by its label where the viewer cannot know the slot yet.
-/
namespace LineBasic

inductive Message where
  | add (label : Label) (text : String)
  | update (slot : Nat) (text : String)
  | remove (slot : Nat)
  /-- Sets a breakpoint, or clears one that is set. -/
  | breakpoint (label : Label)
  | cursor (slot : Nat)
  /-- Shows what has been told so far. -/
  | print
  | clear
deriving DecidableEq, Repr

/-- The line that carries a message. -/
def Message.render : Message → String
  | add label text => "a:" ++ toString label ++ ":" ++ text
  | update slot text => "u:" ++ toString slot ++ ":" ++ text
  | remove slot => "r:" ++ toString slot
  | breakpoint label => "b:" ++ toString label
  | cursor slot => "c:" ++ toString slot
  | print => "print"
  | clear => "clear"

/-- Why a viewer did not connect, or did not take a message. -/
inductive LinkFault where
  | notFound
  | refused
  | broken
  | notConnected
deriving DecidableEq, Repr

/-- A receiver of messages. -/
class Viewer (V : Type) where
  /-- Makes sure that the viewer can be reached. `true` means that the connection is new, and that
  the viewer knows nothing yet. -/
  connect : V → Except LinkFault Bool × V
  send : V → Message → Except LinkFault Unit × V
  close : V → V

namespace Viewer

variable {V : Type} [Viewer V]

/-- Sends messages in turn. After the first that is not taken the viewer is closed. -/
def deliver (v : V) : List Message → V
  | [] => v
  | msg :: msgs =>
    match send v msg with
    | (.ok _, v) => deliver v msgs
    | (.error _, v) => close v

end Viewer

/-- The viewer that takes everything and shows nothing. -/
structure Silent where

instance : Viewer Silent where
  connect v := (.ok false, v)
  send v _ := (.ok (), v)
  close v := v

end LineBasic
