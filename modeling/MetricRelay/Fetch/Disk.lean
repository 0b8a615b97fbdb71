import MetricRelay.Fetch.Request
import MetricRelay.Files
/-!
Resources that are files. The location is the path behind `file://`; a file over the limit is not
read.
-/
namespace MetricRelay.Disk

def scheme : List Char := "file://".toList

/-- The path that a location opens. -/
def path (url : String) : String :=
  let cs := url.toList
  if scheme.isPrefixOf cs then String.ofList (cs.drop scheme.length) else url

/-- How large what a path names is; a directory is as large as one block. -/
def size : FileKind → Nat
  | .file size => size
  | .directory => 4096

def fetch (files : FileAccess Id) (limit : Nat) (url : String) : Answer :=
  let transport (fault : FileFault) : Answer := .error (.transport url fault.message)
  match (files.kind (path url) : Except FileFault FileKind) with
  | .error fault => transport fault
  | .ok kind =>
    if size kind > limit then .error (.tooLarge url limit)
    else
      match (files.read (path url) : Except FileFault Text.Bytes) with
      | .error fault => transport fault
      | .ok content => .ok content

end MetricRelay.Disk
