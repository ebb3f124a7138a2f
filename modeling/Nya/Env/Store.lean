import Nya.Env.Basic

/-!
# The store of frames

A frame binds names to values, or to functions declared in that very scope. Of the latter only the
declaration is kept: whoever reaches the frame along a chain reads a function closed over the rest
of that chain, starting at the frame itself.
-/

namespace Nya

/-- What a name is bound to in a frame. -/
inductive Binding where
  | value (v : Value)
  | function (declaration : Declaration)
  deriving Repr, Inhabited

/-- The value of a binding, read from the innermost frame of a chain. -/
def Binding.load (env : Env) : Binding → Value
  | value v => v
  | function declaration => .closure declaration env

/-- The bindings of one scope. No name occurs twice. -/
abbrev Frame := List (String × Binding)

namespace Frame

/-- The binding of a name. -/
def get? (f : Frame) (name : String) : Option Binding := f.lookup name

/-- Binds a name, replacing the binding it has. -/
def set (name : String) (b : Binding) : Frame → Frame
  | [] => [(name, b)]
  | (n, old) :: rest => if n = name then (name, b) :: rest else (n, old) :: set name b rest

/-- A name that was just bound has that binding. -/
@[simp] theorem get?_set_self (name : String) (b : Binding) (f : Frame) :
    (set name b f).get? name = some b := by
  induction f with
  | nil => simp [set, get?]
  | cons entry rest ih =>
    obtain ⟨n, old⟩ := entry
    by_cases h : n = name
    · simp [set, get?, h]
    · have h' : (name == n) = false := by simpa using Ne.symm h
      simpa [set, get?, h, h', List.lookup_cons] using ih

/-- Binding a name leaves all other names as they are. -/
theorem get?_set_of_ne {name other : String} (h : other ≠ name) (b : Binding) (f : Frame) :
    (set name b f).get? other = f.get? other := by
  have h' : (other == name) = false := by simpa using h
  induction f with
  | nil => simp [set, get?, List.lookup_cons, h']
  | cons entry rest ih =>
    obtain ⟨n, old⟩ := entry
    by_cases hn : n = name
    · simp [set, get?, hn, h', List.lookup_cons]
    · simp only [get?, set, hn, if_false, List.lookup_cons] at ih ⊢
      rw [ih]

end Frame

/-- All frames, by number. -/
structure Store where
  frames : Array Frame := #[]
  deriving Inhabited

namespace Store

/-- The bindings of a frame. -/
def frame (s : Store) (id : FrameId) : Frame := s.frames.getD id []

/-- Adds an empty frame, whose number is the size of the store before. -/
def push (s : Store) : Store := ⟨s.frames.push []⟩

/-- The number of the next frame. -/
def next (s : Store) : FrameId := s.frames.size

/-- Binds a name in a frame. -/
def bind (s : Store) (id : FrameId) (name : String) (b : Binding) : Store :=
  ⟨s.frames.modify id (Frame.set name b)⟩

/-! What the operations do to the frames. -/

@[simp] theorem next_push (s : Store) : s.push.next = s.next + 1 := by simp [push, next]

/-- A new frame is empty, so no frame looks different after it was added. -/
@[simp] theorem frame_push (s : Store) (id : FrameId) : s.push.frame id = s.frame id := by
  simp only [frame, push, Array.getD_eq_getD_getElem?, Array.getElem?_push]
  split
  · next h => simp [h]
  · rfl

@[simp] theorem next_bind (s : Store) (id : FrameId) (name : String) (b : Binding) :
    (s.bind id name b).next = s.next := by simp [bind, next]

theorem frame_bind_self {s : Store} {id : FrameId} (h : id < s.next) (name : String)
    (b : Binding) : (s.bind id name b).frame id = Frame.set name b (s.frame id) := by
  simp only [next] at h
  simp [frame, bind, h, Array.getElem_modify]

theorem frame_bind_of_ne {s : Store} {id other : FrameId} (h : other ≠ id) (name : String)
    (b : Binding) : (s.bind id name b).frame other = s.frame other := by
  simp [frame, bind, Array.getElem?_modify, Ne.symm h]

/-- Binds a name to a value in the innermost frame of a chain. -/
def define (s : Store) (env : Env) (name : String) (v : Value) : Store :=
  s.bind env.frame name (.value v)

/-- Binds the name of a declaration to its function in the innermost frame of a chain. -/
def declare (s : Store) (env : Env) (d : Declaration) : Store :=
  s.bind env.frame d.name.lexeme (.function d)

/-- Whether a frame binds a name. -/
def binds (s : Store) (id : FrameId) (name : String) : Bool := ((s.frame id).get? name).isSome

/-- The value of a name in the innermost frame of a chain. -/
def read? (s : Store) (env : Env) (name : String) : Option Value :=
  ((s.frame env.frame).get? name).map (Binding.load env)

/-- The part of a chain that starts at the first frame binding the name. -/
def holder? (s : Store) (name : String) : Env → Option Env
  | .root frame => if s.binds frame name then some (.root frame) else none
  | .child frame outer =>
    if s.binds frame name then some (.child frame outer) else s.holder? name outer

/-- The value of a name, searched along a chain. -/
def lookup? (s : Store) (env : Env) (name : String) : Option Value :=
  (s.holder? name env).bind fun holder => s.read? holder name

/-- Overwrites the first binding of a name along a chain. -/
def assign? (s : Store) (env : Env) (name : String) (v : Value) : Option Store :=
  (s.holder? name env).map fun holder => s.define holder name v

/-- The part of a chain some frames out, if the frame it starts at binds the name. -/
def holderAt? (s : Store) (name : String) (distance : Nat) (env : Env) : Option Env :=
  if s.binds (env.ancestor distance).frame name then some (env.ancestor distance) else none

/-- The value of a name exactly some frames out. -/
def readAt? (s : Store) (env : Env) (distance : Nat) (name : String) : Option Value :=
  s.read? (env.ancestor distance) name

/-- Overwrites a name exactly some frames out. -/
def writeAt? (s : Store) (env : Env) (distance : Nat) (name : String) (v : Value) :
    Option Store :=
  (s.holderAt? name distance env).map fun holder => s.define holder name v

end Store

end Nya
