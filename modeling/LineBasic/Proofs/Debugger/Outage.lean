import LineBasic.Proofs.Debugger.Notice

/-!
# Viewers that cannot be reached

A notice that finds no connection is lost, and the viewer stays connected to whatever it was. So it is
behind until it is told everything again, or until what it has missed is told anew. `Arrears` keeps
account of that, request by request, and the viewer is right about all that is not in arrears
(`replica_eq_of_settled`). But a later notice that comes through does not settle them by itself
(`replica_ne_view_after_refusal`). A viewer that can always be reached is never in arrears, so it shows the
session in every pause, even if it lost messages before (`replica_eq_view`).
-/
namespace LineBasic

/-! ## Deliveries -/

namespace Unsteady

/-- The last attempt to connect was not refused. -/
def lastConnected {V : Type} (u : Unsteady V) : Bool :=
  match u.connects with
  | 0 => true
  | n + 1 => !u.failConnects.contains n

theorem deliver_connects (u : Unsteady Recorder) (msgs : List Message) :
    (Viewer.deliver u msgs).connects = u.connects :=
  (deliver_frame u msgs).1

theorem failConnects_of_connect {u v : Unsteady Recorder} {r : Except LinkFault Bool}
    (h : Viewer.connect u = (r, v)) : v.failConnects = u.failConnects := by
  obtain ⟨connected, rfl⟩ := eq_of_connect h
  rfl

theorem deliver_failConnects {u v : Unsteady Recorder} {r : Except LinkFault Bool}
    (h : Viewer.connect u = (r, v)) (msgs : List Message) :
    (Viewer.deliver v msgs).failConnects = u.failConnects :=
  (deliver_frame v msgs).2.trans (failConnects_of_connect h)

end Unsteady

/-! ## Arrears -/

/-- What a viewer may be wrong about, because a notice of it was refused. -/
structure Arrears where
  lines : Bool := false
  breakpoints : Bool := false
  cursor : Bool := false
deriving DecidableEq, Repr

namespace Arrears

/-- The notice of a request was refused. -/
def refused (a : Arrears) : Request → Arrears
  | .toggle _ => { a with breakpoints := true }
  | .submit _ => { a with lines := true, cursor := true }
  | .proceed _ => { a with cursor := true }
  | _ => { lines := true, breakpoints := true, cursor := true }

/-- The changes that a request makes were told. All notices but that of a breakpoint tell the cursor. -/
def told (a : Arrears) : Request → Arrears
  | .toggle _ => a
  | _ => { a with cursor := false }

/-- The arrears after a request that found the viewer as `u` and left it as `v`. A session that begins and
a new connection settle all of them. -/
def after (a : Arrears) (r : Request) (u v : Unsteady Recorder) : Arrears :=
  if v.connects = u.connects then a
  else if u.connects ∈ u.failConnects then a.refused r
  else if r = .begin ∨ u.viewer.connected = false then {}
  else a.told r

section

variable {r : Request} {u v : Unsteady Recorder} (a : Arrears)

/-- There are none where no attempt to connect fails. -/
theorem after_of_steady (h : u.failConnects = []) : after {} r u v = {} := by
  have hmem : u.connects ∉ u.failConnects := by simp [h]
  have htold : told {} r = {} := by cases r <;> rfl
  rw [after, if_neg hmem, htold, ite_self, ite_self]

theorem after_of_refused (hv : v.connects = u.connects + 1) (h : u.connects ∈ u.failConnects) :
    a.after r u v = a.refused r := by
  rw [after, if_neg (by omega), if_pos h]

theorem after_of_settled (hv : v.connects = u.connects + 1) (h : u.connects ∉ u.failConnects)
    (hr : r = .begin ∨ u.viewer.connected = false) : a.after r u v = {} := by
  rw [after, if_neg (by omega), if_neg h, if_pos hr]

theorem after_of_told (hv : v.connects = u.connects + 1) (h : u.connects ∉ u.failConnects)
    (hr : r ≠ .begin) (hc : u.viewer.connected = true) : a.after r u v = a.told r := by
  rw [after, if_neg (by omega), if_neg h, if_neg (by simp [hr, hc])]

end

end Arrears

namespace Debugger

/-- A debugger of a reachable machine, after any requests and with its viewer closed at any time, and what
its viewer may be wrong about. Any attempts to connect to the viewer and any messages to it may fail. -/
inductive Followed : Debugger (Unsteady Recorder) → Arrears → Prop
  | fresh {m : Machine} {u : Unsteady Recorder} :
      m.Reachable → Followed { machine := m, viewer := u } {}
  | serve {d : Debugger (Unsteady Recorder)} {a : Arrears} (r : Request) :
      Followed d a → Followed (d.serve r).2 (a.after r d.viewer (d.serve r).2.viewer)
  | close {d : Debugger (Unsteady Recorder)} {a : Arrears} :
      Followed d a → Followed { d with viewer := Viewer.close d.viewer } a

variable {d : Debugger (Unsteady Recorder)} {a : Arrears}

theorem Followed.orderly (h : Followed d a) : Orderly d := by
  induction h with
  | fresh hm => exact ⟨hm.ascending, .nil, nofun, nofun⟩
  | serve r _ ih => exact ih.serve r
  | close _ ih => exact ih.withViewer _

/-! ## The invariant -/

/-- The replica is right about the session, as far as there are no arrears. -/
structure Agrees (d : Debugger (Unsteady Recorder)) (a : Arrears) (r : Replica) : Prop where
  lines : a.lines = false → r.lines = d.machine.program.shown
  breakpoints : a.breakpoints = false → r.breakpoints = d.breakpoints.toFinset
  cursor : a.cursor = false → d.pace = .paused → r.cursor = some d.machine.cursor

theorem agrees_view (d : Debugger (Unsteady Recorder)) (a : Arrears) : Agrees d a d.view :=
  ⟨fun _ => rfl, fun _ => rfl, fun _ _ => rfl⟩

theorem Agrees.eq_view {r : Replica} (h : Agrees d {} r) (hp : d.pace = .paused) : r = d.view := by
  obtain ⟨hl, hb, hc⟩ := h
  cases r
  cases hl rfl
  cases hb rfl
  cases hc rfl hp
  rfl

/-- A viewer that is connected or took the last message shows the session, as far as there are no
arrears. -/
def Tracks (d : Debugger (Unsteady Recorder)) (a : Arrears) : Prop :=
  d.viewer.viewer.connected = true ∨ d.viewer.lastTaken = true → d.Live → Agrees d a d.replica

/-- The machine and the pace may change without notice if a session under way goes on, with the same
program and in a pause at the same place. -/
theorem Tracks.quiet {d' : Debugger (Unsteady Recorder)} (h : Tracks d a) (hv : d'.viewer = d.viewer)
    (hb : d'.breakpoints = d.breakpoints)
    (hk : d'.Live → d.Live ∧ d'.machine.program = d.machine.program ∧
      (d'.pace = .paused → d.pace = .paused ∧ d'.machine.cursor = d.machine.cursor)) : Tracks d' a := by
  intro hc hlive
  obtain ⟨hl, hprogram, hpaused⟩ := hk hlive
  rw [hv] at hc
  have hs := h hc hl
  have hreplica : d'.replica = d.replica := by rw [replica, hv, replica]
  rw [hreplica]
  refine ⟨fun ha => ?_, fun ha => ?_, fun ha hp => ?_⟩
  · rw [hs.lines ha, hprogram]
  · rw [hs.breakpoints ha, hb]
  · obtain ⟨hp', hcursor⟩ := hpaused hp
    rw [hs.cursor ha hp', hcursor]

/-! ### Deliveries -/

/-- After a delivery the viewer is closed, or has taken all messages. So they only have to make it
show a session that is under way. -/
theorem Tracks.deliver {u : Unsteady Recorder} {msgs : List Message}
    (hu : u.viewer.messages = d.viewer.viewer.messages) (hc : u.viewer.connected = true)
    (hne : msgs ≠ []) (hm : d.Live → Agrees d a (d.replica.receiveAll msgs)) :
    Tracks { d with viewer := Viewer.deliver u msgs } a := by
  cases Unsteady.deliver_delivered msgs hc (fun h => absurd h hne) with
  | cut hc' hl =>
    rintro (hc | ht)
    · cases hc'.symm.trans hc
    · cases hl.symm.trans ht
  | complete _ hmsgs _ =>
    intro _ hlive
    have hreplica : replica { d with viewer := Viewer.deliver u msgs } = d.replica.receiveAll msgs := by
      rw [replica, hmsgs, hu, Replica.receiveAll_append]
      rfl
    obtain ⟨hl, hb, hcur⟩ := hm hlive
    rw [hreplica]
    exact ⟨hl, hb, hcur⟩

/-- A notice that is refused leaves the viewer as it was. -/
theorem Tracks.refused (h : d.viewer.viewer.connected = true ∨ d.viewer.lastTaken = true → d.Live →
    Agrees d a d.replica) : Tracks { d with viewer := { d.viewer with connects := d.viewer.connects + 1 } } a := by
  intro hc hlive
  obtain ⟨hl, hb, hcur⟩ := h hc hlive
  exact ⟨hl, hb, hcur⟩

theorem Tracks.tell (ho : d.Orderly) :
    Tracks (d.tell d.snapshot) (a.after .begin d.viewer (d.tell d.snapshot).viewer) := by
  unfold Debugger.tell
  by_cases hf : d.viewer.connects ∈ d.viewer.failConnects
  · rw [Unsteady.connect_of_mem hf, Arrears.after_of_refused a rfl hf]
    exact .refused (fun _ _ => ⟨nofun, nofun, nofun⟩)
  · rw [Unsteady.connect_of_notMem hf,
      Arrears.after_of_settled a (Unsteady.deliver_connects _ _) hf (.inl rfl)]
    refine Tracks.deliver ?_ ?_ (by simp [snapshot]) (fun _ => ?_)
    · rfl
    · rfl
    · rw [receiveAll_snapshot ho]
      exact d.agrees_view _

/-- A notice of changes is refused, tells a new viewer everything, or tells the changes. -/
theorem Tracks.inform {r : Request} {changes : List Message} (ho : d.Orderly) (hr : r ≠ .begin)
    (hrefused : d.viewer.viewer.connected = true ∨ d.viewer.lastTaken = true → d.Live →
      Agrees d (a.refused r) d.replica)
    (htold : d.viewer.viewer.connected = true → d.Live →
      Agrees d (a.told r) (d.replica.receiveAll changes)) :
    Tracks (d.inform changes) (a.after r d.viewer (d.inform changes).viewer) := by
  unfold Debugger.inform
  by_cases hf : d.viewer.connects ∈ d.viewer.failConnects
  · rw [Unsteady.connect_of_mem hf, Arrears.after_of_refused a rfl hf]
    exact .refused hrefused
  · rw [Unsteady.connect_of_notMem hf]
    cases hc : d.viewer.viewer.connected with
    | false =>
      -- The connection is new, so what the viewer knew does not matter.
      dsimp only [Bool.not_false]
      rw [Arrears.after_of_settled a (Unsteady.deliver_connects _ _) hf (.inr hc)]
      refine Tracks.deliver ?_ ?_ (by simp [snapshot]) (fun _ => ?_)
      · rfl
      · rfl
      · rw [receiveAll_snapshot ho]
        exact d.agrees_view _
    | true =>
      dsimp only [Bool.not_true]
      rw [Arrears.after_of_told a (Unsteady.deliver_connects _ _) hf hr hc]
      refine Tracks.deliver ?_ ?_ (by simp) (fun hlive => ?_)
      · rfl
      · rfl
      · rw [Replica.receiveAll_append]
        exact htold hc hlive

/-! ### Requests -/

/-- A viewer toggles a breakpoint as the debugger does. -/
theorem Agrees.toggled {r : Replica} (h : Agrees d a r) (label : Label) :
    Agrees { d with breakpoints := toggled d.breakpoints label } a (r.receive (.breakpoint label)) := by
  refine ⟨h.lines, fun ha => ?_, h.cursor⟩
  show (if label ∈ r.breakpoints then _ else _) = _
  rw [h.breakpoints ha]
  by_cases hm : label ∈ d.breakpoints
  · rw [if_pos (List.mem_toFinset.2 hm), toggled_of_mem hm]
    ext b
    simp [and_comm]
  · rw [if_neg (mt List.mem_toFinset.1 hm), List.toFinset_eq_of_perm _ _ (toggled_perm hm), List.toFinset_cons]

/-- The message that tells of a change of the program changes nothing else. -/
theorem receiveAll_changeMessage_frame (p : Program) (c : Change) (r : Replica) :
    (r.receiveAll (changeMessage? p c).toList).breakpoints = r.breakpoints ∧
      (r.receiveAll (changeMessage? p c).toList).cursor = r.cursor := by
  cases c with
  | added i | updated i => rw [changeMessage?]; cases p.line? i <;> exact ⟨rfl, rfl⟩
  | removed i | unchanged => exact ⟨rfl, rfl⟩

/-- A viewer makes an edit as the debugger does. -/
theorem Agrees.edited {r : Replica} {s : Statement} {e : Debugger (Unsteady Recorder)}
    (h : Agrees d a r) (hb : e.breakpoints = d.breakpoints)
    (hp : e.machine.program = (d.machine.program.apply s).2) :
    Agrees e { a with cursor := false }
      (r.receiveAll ((changeMessage? e.machine.program (d.machine.program.apply s).1).toList ++
        [.cursor e.machine.cursor])) := by
  obtain ⟨hbreak, -⟩ := receiveAll_changeMessage_frame e.machine.program (d.machine.program.apply s).1 r
  rw [Replica.receiveAll_append]
  refine ⟨fun ha => ?_, fun ha => ?_, fun _ _ => rfl⟩
  · have htold := Replica.receiveAll_changeMessage (Program.apply_alters d.machine.program s) r (h.lines ha)
    rw [← hp] at htold
    rw [htold]
    rfl
  · show (r.receiveAll _).breakpoints = _
    rw [hbreak, h.breakpoints ha, hb]

theorem replica_of_viewer {e : Debugger (Unsteady Recorder)} (h : e.viewer = d.viewer) :
    e.replica = d.replica := by
  rw [replica, h, replica]

/-- What a request tells the viewer, or fails to tell it, is in the account. -/
theorem Effect.tracks {r : Request} {d' : Debugger (Unsteady Recorder)} (h : Effect d r d')
    (ho : d.Orderly) (ht : Tracks d a) : Tracks d' (a.after r d.viewer d'.viewer) := by
  cases h with
  | quiet hv hb hk =>
    rw [hv, Arrears.after, if_pos rfl]
    exact ht.quiet hv hb hk
  | begun horderly hv =>
    rw [← hv]
    exact .tell horderly
  | toggled label =>
    refine .inform (ho.toggled label) (by simp) (fun hc hlive => ?_) (fun hc hlive => ?_)
    · exact ⟨(ht hc hlive).lines, nofun, (ht hc hlive).cursor⟩
    · exact (ht (.inl hc) hlive).toggled label
  | @edited text s e horderly he hp hl =>
    have hv : e.viewer = d.viewer := by rw [he]
    have hb : e.breakpoints = d.breakpoints := by rw [he]
    rw [← hv]
    refine .inform horderly (by simp) (fun hc hlive => ?_) (fun hc hlive => ?_) <;>
      rw [replica_of_viewer hv] <;> rw [hv] at hc
    · exact ⟨nofun, fun ha => ((ht hc (hl hlive)).breakpoints ha).trans (congrArg _ hb.symm), nofun⟩
    · exact (ht (.inl hc) (hl hlive)).edited hb hp
  | @paused steps e es horderly hl hv hb hp =>
    have hinform : Tracks (e.inform [.cursor e.machine.cursor])
        (a.after (.proceed steps) d.viewer (e.inform [.cursor e.machine.cursor]).viewer) := by
      rw [← hv]
      refine .inform horderly (by simp) (fun hc hlive => ?_) (fun hc hlive => ?_) <;>
        rw [replica_of_viewer hv] <;> rw [hv] at hc
      · have hs := ht hc hl
        exact ⟨fun ha => by rw [hs.lines ha, hp], fun ha => by rw [hs.breakpoints ha, hb], nofun⟩
      · have hs := ht (.inl hc) hl
        exact ⟨fun ha => (hs.lines ha).trans (by rw [hp]), fun ha => (hs.breakpoints ha).trans (by rw [hb]),
          fun _ _ => rfl⟩
    -- the event that is delivered with the pause is none of the viewer's business
    obtain ⟨v, hinf⟩ := inform_eq e [.cursor e.machine.cursor]
    rw [hinf] at hinform ⊢
    exact hinform.quiet rfl rfl (fun hlive => ⟨hlive, rfl, fun hp => ⟨hp, rfl⟩⟩)
  | ended hna =>
    intro _ hlive
    cases hna.symm.trans hlive.1

/-! ## Sessions -/

theorem Followed.tracks (h : Followed d a) : Tracks d a := by
  induction h with
  | fresh => exact fun _ hlive => absurd hlive.1 Bool.false_ne_true
  | serve r h ih => exact (serve_effect h.orderly r).tracks h.orderly ih
  | close _ ih =>
    rintro (hc | ht) hlive
    · cases hc
    · obtain ⟨hl, hb, hcur⟩ := ih (.inr ht) hlive
      exact ⟨hl, hb, hcur⟩

theorem Followed.agrees (h : Followed d a) (hp : d.isPaused = true) (ht : d.viewer.lastTaken = true) :
    Agrees d a d.replica := by
  obtain ⟨hactive, hpaused, -⟩ := isPaused_iff.1 hp
  exact h.tracks (.inr ht) ⟨hactive, .inl hpaused⟩

/-- While the session is paused, a viewer that took the last message is right about the lines, the
breakpoints and the cursor, as far as they are not in arrears. -/
theorem replica_eq_of_settled (h : Followed d a) (hp : d.isPaused = true)
    (ht : d.viewer.lastTaken = true) :
    (a.lines = false → d.replica.lines = d.view.lines) ∧
      (a.breakpoints = false → d.replica.breakpoints = d.view.breakpoints) ∧
      (a.cursor = false → d.replica.cursor = d.view.cursor) := by
  have hs := h.agrees hp ht
  exact ⟨hs.lines, hs.breakpoints, fun ha => hs.cursor ha (isPaused_iff.1 hp).2.1⟩

/-- The viewer misses a breakpoint and a pause. The next pause tells it the cursor, but not the
breakpoint. -/
theorem replica_eq_of_settled_next_pause :
    ∃ (d : Debugger (Unsteady Recorder)) (a : Arrears), Followed d a ∧ d.isPaused = true ∧
      d.viewer.lastTaken = true ∧ a = { breakpoints := true } ∧
      d.replica.lines = d.view.lines ∧ d.replica.cursor = d.view.cursor ∧
      d.view = { lines := [(10, "LET A = 1"), (20, "GOTO 10")], breakpoints := {10}, cursor := some 0 } := by
  have h0 : Followed { machine := Machine.ofSeed 1, viewer := { viewer := {}, failConnects := [1, 2] } } {} :=
    .fresh (.fresh (.ofSeed 1))
  have h1 := ((h0.serve (.submit "10 LET A = 1")).serve (.submit "20 GOTO 10")).serve .begin
  have h2 := ((h1.serve (.toggle 10)).serve .stepIn).serve (.proceed 9)
  have h3 := (h2.serve .stepIn).serve (.proceed 9)
  refine ⟨_, _, h3, ?paused, ?taken, ?arrears,
    (replica_eq_of_settled h3 ?paused ?taken).1 (congrArg Arrears.lines ?arrears),
    (replica_eq_of_settled h3 ?paused ?taken).2.2 (congrArg Arrears.cursor ?arrears), ?view⟩
  case paused => decide +kernel
  case taken => decide +kernel
  case arrears => decide +kernel
  case view => decide +kernel

/-- A breakpoint is set while the viewer cannot be reached, and the next one is told to it as if it knew
of the first. -/
theorem replica_ne_view_after_refusal :
    ∃ (d : Debugger (Unsteady Recorder)) (a : Arrears), Followed d a ∧ d.isPaused = true ∧
      d.viewer.lastConnected = true ∧ d.viewer.lastTaken = true ∧
      d.replica.breakpoints = {20} ∧ d.view.breakpoints = {10, 20} := by
  have h0 : Followed { machine := Machine.ofSeed 1, viewer := { viewer := {}, failConnects := [1] } } {} :=
    .fresh (.fresh (.ofSeed 1))
  have h1 := ((h0.serve (.submit "10 END")).serve .begin).serve (.toggle 10)
  have h2 := h1.serve (.toggle 20)
  exact ⟨_, _, h2, by decide +kernel, by decide +kernel, by decide +kernel, by decide +kernel, by decide +kernel⟩

/-! ## Viewers that can always be reached -/

/-- A debugger of a reachable machine, after any requests and with its viewer closed at any time. The
viewer can always be connected, but may lose messages. -/
inductive Attended : Debugger (Unsteady Recorder) → Prop
  | fresh {m : Machine} {u : Unsteady Recorder} :
      m.Reachable → u.failConnects = [] → Attended { machine := m, viewer := u }
  | serve {d : Debugger (Unsteady Recorder)} (r : Request) : Attended d → Attended (d.serve r).2
  | close {d : Debugger (Unsteady Recorder)} :
      Attended d → Attended { d with viewer := Viewer.close d.viewer }

theorem tell_failConnects (d : Debugger (Unsteady Recorder)) (msgs : List Message) :
    (d.tell msgs).viewer.failConnects = d.viewer.failConnects := by
  unfold tell
  split
  · next hc => exact Unsteady.deliver_failConnects hc _
  · next hc => exact Unsteady.failConnects_of_connect hc

theorem inform_failConnects (d : Debugger (Unsteady Recorder)) (changes : List Message) :
    (d.inform changes).viewer.failConnects = d.viewer.failConnects := by
  unfold inform
  split
  · next hc => exact Unsteady.deliver_failConnects hc _
  · next hc => exact Unsteady.deliver_failConnects hc _
  · next hc => exact Unsteady.failConnects_of_connect hc

theorem Effect.failConnects {r : Request} {d' : Debugger (Unsteady Recorder)} (h : Effect d r d') :
    d'.viewer.failConnects = d.viewer.failConnects := by
  cases h with
  | quiet hv => rw [hv]
  | begun _ hv => rw [tell_failConnects, hv]
  | toggled label => exact inform_failConnects _ _
  | edited _ he => rw [inform_failConnects, he]
  | paused es _ _ hv => exact (inform_failConnects _ _).trans (congrArg _ hv)
  | ended _ hv ht => rw [ht, tell_failConnects, hv]

/-- Where no notice is refused there are no arrears. -/
theorem Attended.followed (h : Attended d) : d.viewer.failConnects = [] ∧ Followed d {} := by
  induction h with
  | fresh hm hu => exact ⟨hu, .fresh hm⟩
  | serve r _ ih =>
    obtain ⟨hu, hf⟩ := ih
    refine ⟨(serve_effect hf.orderly r).failConnects.trans hu, ?_⟩
    have hserve := hf.serve r
    rwa [Arrears.after_of_steady hu] at hserve
  | close _ ih => exact ⟨ih.1, ih.2.close⟩

/-- While the session is paused, a viewer that took the last message shows its lines, its breakpoints
and its cursor. -/
theorem replica_eq_view (h : Attended d) (hp : d.isPaused = true)
    (ht : d.viewer.lastTaken = true) : d.replica = d.view :=
  (h.followed.2.agrees hp ht).eq_view (isPaused_iff.1 hp).2.1

/-- The viewer loses the news of a breakpoint, and is told everything after the next edit. -/
theorem replica_eq_view_after_loss :
    ∃ d : Debugger (Unsteady Recorder), Attended d ∧ d.isPaused = true ∧
      d.viewer.lastTaken = true ∧ d.replica = d.view ∧
      d.view = { lines := [(5, "REM"), (10, "END")], breakpoints := {10}, cursor := some 1 } := by
  have h0 : Attended { machine := Machine.ofSeed 1, viewer := { viewer := {}, failSends := [4] } } :=
    .fresh (.fresh (.ofSeed 1)) rfl
  have h1 := ((h0.serve (.submit "10 END")).serve .begin).serve (.toggle 10)
  have h2 := h1.serve (.submit "5 REM")
  refine ⟨_, h2, ?paused, ?taken, replica_eq_view h2 ?paused ?taken, ?view⟩
  case paused => decide +kernel
  case taken => decide +kernel
  case view => decide +kernel

end Debugger

end LineBasic
