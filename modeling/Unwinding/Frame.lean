import Unwinding.Stack

/-!
# Call frames

The frame stack of a thread is its call trace. A frame is a site and a note that the
program may attach to it while it is the innermost one. Depths that reach beyond the
stack are read as its whole depth.

`Frames.reconcile` cuts the stack back to a depth that a handle remembers. Leftover
frames above that depth are removed and reported; missing ones cannot be repaired.
-/

namespace Unwinding

/-- A call in progress: where it is, and what the program noted about it. -/
structure Frame where
  site : Site
  annotation : String := ""
  deriving DecidableEq, Repr, Inhabited

namespace Frame

/-- Writes a call over a node that may have been the frame of another one, field by
field. -/
def reset (frame : Frame) (site : Site) : Frame :=
  { frame with
    site :=
      { frame.site with file := site.file, line := site.line, function := site.function
      }
    annotation := "" }

/-- A frame that is written over shows nothing of what it was used for before. -/
theorem reset_eq (frame : Frame) (site : Site) : frame.reset site = ⟨site, ""⟩ := rfl

/-- The text of a frame: its site, and the annotation in brackets if there is one. -/
def text (frame : Frame) : String :=
  if frame.annotation.isEmpty then
    frame.site.text
  else
    s!"{frame.site.text} [{frame.annotation}]"

/-- Frames one a line. -/
def lines (frames : List Frame) : String :=
  String.join (frames.map fun frame => frame.text ++ "\n")

end Frame

/-- The frame stack of a thread. -/
abbrev Frames := Stack Frame

namespace Frames

/-- An empty trace, with some of its frames laid out in advance. -/
def new (limit preallocate : Nat) : Frames :=
  (Stack.empty "frames" limit).reserve preallocate default

/-- Enters a call: its frame starts without an annotation. -/
def enter (frames : Frames) (site : Site) : Except Error Frames :=
  frames.refill default fun frame => frame.reset site

/-- A call puts a fresh frame on the trace, whether or not a spare one is used for
it. -/
theorem enter_eq_place (frames : Frames) (site : Site) :
    frames.enter site = frames.place ⟨site, ""⟩ :=
  frames.refill_eq_place default fun frame => frame.reset_eq site

/-- Once a call is entered, its frame is the innermost one, and it bears no
annotation. -/
theorem live_enter {frames entered : Frames} {site : Site}
    (h : frames.enter site = .ok entered) :
    entered.live = ⟨site, ""⟩ :: frames.live :=
  (Stack.live_place (frames.enter_eq_place site ▸ h)).1

/-- Leaves the innermost call. -/
def leave (frames : Frames) : Except Error Frames :=
  frames.pop.map Prod.snd

/-- Replaces the annotation of the innermost frame; false if there is none. -/
def annotate (frames : Frames) (text : String) : Bool × Frames :=
  (!frames.isEmpty, frames.modifyTop fun frame => { frame with annotation := text })

/-- The oldest `depth` frames as text, innermost first. -/
def render (frames : Frames) (depth : Nat) : String :=
  Frame.lines (frames.bottom depth)

/-- The oldest `depth` frames, oldest first. -/
def snapshot (frames : Frames) (depth : Nat) : List Frame :=
  (frames.bottom depth).reverse

/-- What cutting a frame stack back to a depth found. -/
inductive Reconciled where
  | balanced
  /-- So many frames were left over, of which this was the innermost. -/
  | repaired (count : Nat) (innermost : Frame)
  deriving DecidableEq, Repr

/-- Cuts the stack back to a remembered depth. -/
def reconcile (frames : Frames) (depth : Nat) : Except Error (Reconciled × Frames) :=
  if frames.depth < depth then
    .error (.corrupted (.framesShrank depth frames.depth))
  else if frames.depth = depth then
    .ok (.balanced, frames)
  else
    match frames.top? with
    | some innermost =>
        .ok (.repaired (frames.depth - depth) innermost, frames.truncate depth)
    | none => .ok (.balanced, frames)

end Frames

end Unwinding
