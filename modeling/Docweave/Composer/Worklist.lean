import Docweave.Pointer.Path

/-!
Worklists: the nodes that the next pass of composing looks through.

A worklist names no node twice and no node below another, since looking through a node looks
through everything below it.
-/

namespace Docweave

namespace Worklist

/-- The paths of a sorted list that lie below another; `last?` is the last path before the list
that does not. -/
def nested : Option Path → List Path → List Path
  | _, [] => []
  | last?, path :: rest =>
    if last?.any fun last => path.isBelow last then path :: nested last? rest
    else nested (some path) rest

/-- The paths in order of their first occurrence, without those below another. -/
def normalize (paths : List Path) : List Path :=
  let unique := paths.eraseDups
  let below := nested none (unique.mergeSort Path.atMost)
  unique.filter fun path => !below.contains path

end Worklist

end Docweave
