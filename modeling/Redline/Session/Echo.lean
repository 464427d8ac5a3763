import Redline.Session.Process
import Redline.Text.Quoted

/-! # The echo host

A host for trying out sessions: it shows each input between quotation marks and fails, with the
input as the error, on one that starts with `fail`. -/

namespace Redline.Session.Echo

def host : Host Unit String := fun _ input =>
  ⟨(), .line (Text.visible input),
    if "fail".toList.isPrefixOf input.toList then .failed input else .goOn⟩

def wording : Wording String := ⟨Text.visible, ""⟩

/-- The echo session on the bytes of its standard input. -/
def run (input : Bytes) : Exit := process host () wording .empty input

end Redline.Session.Echo
