import LineBasic.Proofs.Statement.RoundTrip
import LineBasic.Viewer.Basic

/-!
# Messages as lines of text

A viewer program reads its messages from a stream of lines. Every line that carries a message is read
back as that message (`ofLine?_render`), so a stream is decoded into the messages that it was made of
if and only if none of them takes more than one line (`decode_stream_iff`).
-/
namespace LineBasic

namespace Message

/-! ## Lines -/

/-- The text that a message carries. -/
def text? : Message → Option String
  | add _ text | update _ text => some text
  | remove _ | breakpoint _ | cursor _ | print | clear => none

/-- Reads a number and the text behind the colon after it. -/
def field? (cs : List Char) : Option (Nat × String) :=
  match cs.dropWhile Char.isDigit with
  | ':' :: text => (Text.decimal? (cs.takeWhile Char.isDigit)).map (·, String.ofList text)
  | _ => none

/-- Reads a line by its first character, or as a whole if it is a single word. -/
def ofLine? : List Char → Option Message
  | 'a' :: ':' :: cs => (field? cs).map fun f => add f.1 f.2
  | 'u' :: ':' :: cs => (field? cs).map fun f => update f.1 f.2
  | 'r' :: ':' :: cs => (Text.decimal? cs).map remove
  | 'b' :: ':' :: cs => (Text.decimal? cs).map breakpoint
  | 'c' :: ':' :: cs => (Text.decimal? cs).map cursor
  | ['p', 'r', 'i', 'n', 't'] => some print
  | ['c', 'l', 'e', 'a', 'r'] => some clear
  | _ => none

theorem field?_toString (n : Nat) (text : String) :
    field? ((toString n).toList ++ ':' :: text.toList) = some (n, text) := by
  have hdigits : ∀ c ∈ (toString n).toList, c.isDigit = true := Statement.isDigit_labelText (some n)
  have hdecimal : Text.decimal? (toString n).toList = some n := Statement.decimal?_labelText n
  obtain ⟨htake, hdrop⟩ := takeWhile_append_of_head (r := ':' :: text.toList) hdigits (by simp)
  rw [field?, hdrop, htake, hdecimal]
  exact congrArg (fun s => some (n, s)) String.ofList_toList

/-- The line of a message is read as that message. -/
theorem ofLine?_render (msg : Message) : ofLine? msg.render.toList = some msg := by
  have hdecimal (n : Nat) : Text.decimal? (toString n).toList = some n := Statement.decimal?_labelText n
  cases msg with
  | add label text =>
    have : (add label text).render.toList =
        'a' :: ':' :: ((toString label).toList ++ ':' :: text.toList) := by simp [render]
    rw [this, ofLine?, field?_toString]
    rfl
  | update slot text =>
    have : (update slot text).render.toList =
        'u' :: ':' :: ((toString slot).toList ++ ':' :: text.toList) := by simp [render]
    rw [this, ofLine?, field?_toString]
    rfl
  | remove slot =>
    have : (remove slot).render.toList = 'r' :: ':' :: (toString slot).toList := by simp [render]
    rw [this, ofLine?, hdecimal]
    rfl
  | breakpoint label =>
    have : (breakpoint label).render.toList = 'b' :: ':' :: (toString label).toList := by simp [render]
    rw [this, ofLine?, hdecimal]
    rfl
  | cursor slot =>
    have : (cursor slot).render.toList = 'c' :: ':' :: (toString slot).toList := by simp [render]
    rw [this, ofLine?, hdecimal]
    rfl
  | print | clear => rfl

theorem newline_mem_render {msg : Message} :
    '\n' ∈ msg.render.toList ↔ ∃ text, msg.text? = some text ∧ '\n' ∈ text.toList := by
  have hdigits (n : Nat) : '\n' ∉ Nat.toDigits 10 n :=
    fun h => absurd (Nat.isDigit_of_mem_toDigits (by decide) (by decide) h) (by decide)
  cases msg <;> simp [render, text?, hdigits]

/-! ## Streams -/

/-- The lines of the messages, each ended by a line feed. -/
def stream (msgs : List Message) : List Char :=
  msgs.flatMap fun msg => msg.render.toList ++ ['\n']

/-- Cuts a stream at its line feeds and reads each line. There is no line behind the last of them. -/
def decode (cs : List Char) : List (Option Message) :=
  (Text.feeds cs).dropLast.map ofLine?

theorem feeds_stream {msgs : List Message} (h : ∀ msg ∈ msgs, '\n' ∉ msg.render.toList) :
    Text.feeds (stream msgs) = (msgs.map fun msg => msg.render.toList) ++ [[]] := by
  induction msgs with
  | nil => rfl
  | cons msg msgs ih =>
    obtain ⟨hmsg, hmsgs⟩ := List.forall_mem_cons.1 h
    rw [stream, List.flatMap_cons, List.append_assoc, List.singleton_append, Text.feeds_append hmsg,
      Text.feeds, List.modifyHead_cons, List.append_nil]
    exact congrArg (_ :: ·) (ih hmsgs)

/-- There is a line feed for each message, and those in the messages' own lines. -/
theorem count_stream (msgs : List Message) : (stream msgs).count '\n' =
    msgs.length + (msgs.flatMap fun msg => msg.render.toList).count '\n' := by
  induction msgs with
  | nil => rfl
  | cons msg msgs ih =>
    rw [stream, List.flatMap_cons, List.flatMap_cons, List.count_append, List.count_append,
      List.count_append, List.count_singleton_self, List.length_cons]
    change _ + (stream msgs).count '\n' = _
    omega

/-- A stream is decoded into its messages if and only if each of them takes one line. -/
theorem decode_stream_iff (msgs : List Message) :
    decode (stream msgs) = msgs.map some ↔ ∀ msg ∈ msgs, '\n' ∉ msg.render.toList := by
  constructor
  · -- otherwise there are more lines than messages
    intro h msg hmsg
    have hlength := congrArg List.length h
    rw [decode, List.length_map, List.length_map, List.length_dropLast, Text.length_feeds, count_stream] at hlength
    have hcount : (msgs.flatMap fun msg => msg.render.toList).count '\n' = 0 := by omega
    exact fun hmem => List.count_eq_zero.1 hcount (List.mem_flatMap_of_mem hmsg hmem)
  · intro h
    rw [decode, feeds_stream h, List.dropLast_concat, List.map_map]
    exact List.map_congr_left (fun msg _ => ofLine?_render msg)

end Message

end LineBasic
