/-!
# Call sites

Where a unit logs from, read off the frames of the call, innermost first. The
frames are walked up to the unit that owns the call: the first frame with a
function that is not a hook. Frames without a location are passed over.

The path names the call site and is the sequence of all locations walked; the
trace is the place to show and is the outermost of them that lies outside the
logger itself.
-/
namespace RenderLog

structure Frame where
  function : String
  location : String
  deriving DecidableEq, Repr

structure CallSite where
  path : String
  trace : String
  deriving DecidableEq, Repr

/-- Functions of the logger itself begin with this name. -/
def entryPoint : List Char := "use_lifecycle_log".toList

def hookStart : List Char := "use".toList

def hookMember : List Char := ".use".toList

/-- Whether a hook's name follows a point somewhere in the text. -/
def containsHook : List Char → Bool
  | [] => false
  | c :: rest =>
    hookMember.isPrefixOf (c :: rest) && decide (hookMember.length < rest.length + 1) ||
      containsHook rest

/-- A hook starts like one, or is a member that does: something stands before the point
and something behind the start. -/
def isHook (name : List Char) : Bool :=
  hookStart.isPrefixOf name || containsHook name.tail

namespace Frame

/-- The frame of a unit rather than of a hook or of unknown code. -/
def isUnit (f : Frame) : Bool := !f.function.isEmpty && !isHook f.function.toList

/-- The frame has a function outside the logger. -/
def isCaller (f : Frame) : Bool :=
  !f.function.isEmpty && !entryPoint.isPrefixOf f.function.toList

end Frame

namespace CallSite

def empty : CallSite := ⟨"", ""⟩

/-- A location in front of the call site of the frames behind it. -/
def after (site : CallSite) (f : Frame) : CallSite :=
  ⟨f.location ++ "," ++ site.path,
    if site.trace.isEmpty && f.isCaller then f.location else site.trace⟩

def ofFrames : List Frame → CallSite
  | [] => empty
  | f :: rest =>
    if f.location.isEmpty then ofFrames rest
    else if f.isUnit then empty.after f
    else (ofFrames rest).after f

end CallSite
end RenderLog
