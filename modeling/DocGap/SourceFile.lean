import DocGap.Disk
import DocGap.Extraction
import DocGap.Text.Decoding

/-!
# Outlines of files

The language of a file comes from its path. A file in a known language must be a text; the content
of any other file is read as well as possible and declares nothing.
-/
namespace DocGap

inductive ExtractError where
  | unreadable (path : Path) (cause : SystemError)
  | undecodable (path : Path) (cause : Text.DecodingFault)
deriving DecidableEq, Repr

namespace ExtractError

def path : ExtractError → Path
  | unreadable path _ => path
  | undecodable path _ => path

def message : ExtractError → String
  | unreadable path cause => "failed to read " ++ path.spelling ++ ": " ++ cause.message
  | undecodable path cause => path.spelling ++ " is not valid UTF-8: " ++ cause.message

end ExtractError

def Outline.ofBytes (path : Path) (bytes : ByteArray) : Except ExtractError Outline :=
  match path.language? with
  | none => .ok (.empty path none (Text.decodeLossy bytes))
  | some language =>
    match Text.decode bytes with
    | .ok text => .ok (.ofSource path language text)
    | .error cause => .error (.undecodable path cause)

def Outline.ofFile (path : Path) : Except SystemError ByteArray → Except ExtractError Outline
  | .ok bytes => Outline.ofBytes path bytes
  | .error cause => .error (.unreadable path cause)

end DocGap
