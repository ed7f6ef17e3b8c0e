import LineBasic.Proofs.Debugger.Orderly
import LineBasic.Proofs.Viewer.Replica
import LineBasic.Viewer.Recorder

/-!
# Viewers

A delivery is taken as a whole, or ends with the viewer closed (`Unsteady.deliver_delivered`). What a viewer
shows is what it makes of the messages that it took (`Debugger.replica`), and a snapshot makes it show the
session, whatever it showed before (`Debugger.receiveAll_snapshot`).
-/
namespace LineBasic

/-! ## Deliveries -/

/-- What each message and closing preserve, a delivery preserves. -/
theorem Viewer.deliver_of_send {V : Type} [Viewer V] {P : V → Prop} {msgs : List Message}
    (hsend : ∀ msg ∈ msgs, ∀ v, P v → P (send v msg).2) (hclose : ∀ v, P v → P (close v)) {v : V}
    (h : P v) : P (deliver v msgs) := by
  induction msgs generalizing v with
  | nil => exact h
  | cons msg msgs ih =>
    obtain ⟨hfirst, hrest⟩ := List.forall_mem_cons.1 hsend
    have hsent := hfirst v h
    unfold deliver
    split
    · next hv =>
      rw [hv] at hsent
      exact ih hrest hsent
    · next hv =>
      rw [hv] at hsent
      exact hclose _ hsent

namespace Unsteady

/-- The last message sent was taken. A delivery ends at the first message that is not, so this says
that the last delivery was complete. -/
def lastTaken {V : Type} (u : Unsteady V) : Bool :=
  match u.sends with
  | 0 => true
  | n + 1 => !u.failSends.contains n

/-- What a delivery makes of a connected recorder. -/
inductive Delivered (u : Unsteady Recorder) (msgs : List Message) (v : Unsteady Recorder) : Prop
  | complete (connected : v.viewer.connected = true)
      (messages : v.viewer.messages = u.viewer.messages ++ msgs) (taken : v.lastTaken = true)
  | cut (connected : v.viewer.connected = false) (lost : v.lastTaken = false)

theorem connect_of_mem {u : Unsteady Recorder} (h : u.connects ∈ u.failConnects) :
    Viewer.connect u = (.error .refused, { u with connects := u.connects + 1 }) := by
  simp [Viewer.connect, h]

theorem connect_of_notMem {u : Unsteady Recorder} (h : u.connects ∉ u.failConnects) :
    Viewer.connect u = (.ok (!u.viewer.connected),
      { u with connects := u.connects + 1, viewer := { u.viewer with connected := true } }) := by
  simp [Viewer.connect, h]

theorem send_of_mem {u : Unsteady Recorder} (h : u.sends ∈ u.failSends) (msg : Message) :
    Viewer.send u msg = (.error .broken, { u with sends := u.sends + 1 }) := by
  simp [Viewer.send, h]

theorem send_of_notMem {u : Unsteady Recorder} (h : u.sends ∉ u.failSends)
    (hc : u.viewer.connected = true) (msg : Message) :
    Viewer.send u msg = (.ok (), { u with
      sends := u.sends + 1
      viewer := { u.viewer with messages := u.viewer.messages ++ [msg] } }) := by
  simp [Viewer.send, h, hc]

/-- An attempt to connect is counted, and touches nothing but the connection. -/
theorem eq_of_connect {u v : Unsteady Recorder} {r : Except LinkFault Bool} (h : Viewer.connect u = (r, v)) :
    ∃ connected, v = { u with connects := u.connects + 1, viewer := { u.viewer with connected } } := by
  by_cases hf : u.connects ∈ u.failConnects
  · rw [connect_of_mem hf] at h
    cases h
    exact ⟨_, rfl⟩
  · rw [connect_of_notMem hf] at h
    cases h
    exact ⟨_, rfl⟩

/-- A delivery makes no attempt to connect. -/
theorem deliver_frame (u : Unsteady Recorder) (msgs : List Message) :
    (Viewer.deliver u msgs).connects = u.connects ∧ (Viewer.deliver u msgs).failConnects = u.failConnects := by
  refine Viewer.deliver_of_send
    (P := fun v : Unsteady Recorder => v.connects = u.connects ∧ v.failConnects = u.failConnects)
    (fun msg _ v hv => ?_) (fun v hv => hv) ⟨rfl, rfl⟩
  by_cases hf : v.sends ∈ v.failSends
  · rw [send_of_mem hf]
    exact hv
  · simpa [Viewer.send, hf] using hv

/-- All messages are taken, or the viewer is closed after the first that is not. -/
theorem deliver_delivered (msgs : List Message) {u : Unsteady Recorder}
    (hc : u.viewer.connected = true) (ht : msgs = [] → u.lastTaken = true) :
    Delivered u msgs (Viewer.deliver u msgs) := by
  induction msgs generalizing u with
  | nil => exact .complete hc (List.append_nil _).symm (ht rfl)
  | cons msg msgs ih =>
    rw [Viewer.deliver]
    by_cases hf : u.sends ∈ u.failSends
    · rw [send_of_mem hf]
      exact .cut rfl (by simp [lastTaken, Viewer.close, hf])
    · rw [send_of_notMem hf hc]
      dsimp only
      have hmore := @ih { u with
        sends := u.sends + 1
        viewer := { u.viewer with messages := u.viewer.messages ++ [msg] } } hc
        (fun _ => by simp [lastTaken, hf])
      cases hmore with
      | complete hc' hm ht' => exact .complete hc' (by simpa using hm) ht'
      | cut hc' hl => exact .cut hc' hl

end Unsteady

namespace Debugger

/-! ## Views -/

variable {V : Type}

/-- What a viewer of the session should show. -/
def view (d : Debugger V) : Replica where
  lines := d.machine.program.shown
  breakpoints := d.breakpoints.toFinset
  cursor := some d.machine.cursor

/-- What the viewer shows after all that it was sent. -/
def replica (d : Debugger (Unsteady Recorder)) : Replica :=
  ({} : Replica).receiveAll d.viewer.viewer.messages

/-- A snapshot tells all there is to know, whatever was known before. -/
theorem receiveAll_snapshot {d : Debugger V} (h : Orderly d) (r : Replica) :
    r.receiveAll d.snapshot = d.view := by
  have hadd := Replica.receiveAll_add d.machine.program.lines {} (by simp) h.ascending
  have hset := Replica.receiveAll_breakpoint d.breakpoints
    { lines := d.machine.program.shown } (by simp) h.nodup
  show ({} : Replica).receiveAll (_ ++ _ ++ _) = _
  rw [Replica.receiveAll_append, Replica.receiveAll_append, hadd]
  show Replica.receiveAll (Replica.receiveAll { lines := d.machine.program.shown } _) _ = _
  rw [hset]
  simp [Replica.receiveAll, Replica.receive, view]

/-- The session is under way. On the way to a pause it is over once the machine has stopped, though
the debugger has yet to end it. -/
def Live (d : Debugger V) : Prop :=
  d.active = true ∧ (d.pace = .paused ∨ d.machine.status ≠ .stopped)

/-- Skipping remarks does not bring a session back. -/
theorem Live.of_skipRemarks {d : Debugger V} {m : Machine} (hd : m.direct = none)
    (h : Live { d with machine := m.skipRemarks }) : Live { d with machine := m } := by
  refine ⟨h.1, h.2.imp_right (fun hs => ?_)⟩
  rcases Machine.skipRemarks_eq hd with he | ⟨slot, label, hr, -, -⟩
  · rwa [← he]
  · simp [hr]

end Debugger

end LineBasic
