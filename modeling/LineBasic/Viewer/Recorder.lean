import LineBasic.Viewer.Basic

/-!
# Recording viewers

A recorder keeps the messages it is sent. `Unsteady` makes any viewer fail at chosen calls.
-/
namespace LineBasic

structure Recorder where
  connected : Bool := false
  /-- The messages taken, the oldest first. -/
  messages : List Message := []
deriving DecidableEq, Repr

instance : Viewer Recorder where
  connect v := (.ok (!v.connected), { v with connected := true })
  send v msg :=
    if v.connected then (.ok (), { v with messages := v.messages ++ [msg] })
    else (.error .notConnected, v)
  close v := { v with connected := false }

/-- The messages recorded so far, and the recorder without them. -/
def Recorder.take (v : Recorder) : List Message × Recorder :=
  (v.messages, { v with messages := [] })

/-- A viewer whose calls are counted from 0, and fail at the listed counts without reaching it. -/
structure Unsteady (V : Type) where
  viewer : V
  failConnects : List Nat := []
  failSends : List Nat := []
  connects : Nat := 0
  sends : Nat := 0

instance {V : Type} [Viewer V] : Viewer (Unsteady V) where
  connect u :=
    let next := { u with connects := u.connects + 1 }
    if u.failConnects.contains u.connects then (.error .refused, next)
    else
      let (r, v) := Viewer.connect u.viewer
      (r, { next with viewer := v })
  send u msg :=
    let next := { u with sends := u.sends + 1 }
    if u.failSends.contains u.sends then (.error .broken, next)
    else
      let (r, v) := Viewer.send u.viewer msg
      (r, { next with viewer := v })
  close u := { u with viewer := Viewer.close u.viewer }

end LineBasic
