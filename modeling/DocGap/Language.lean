/-!
# Languages

The languages whose texts can be outlined, and how a file name picks one of them.
-/
namespace DocGap

inductive Language where
  | javascript | typescript | python | java | c | cpp | csharp | php | ruby | go | rust
deriving DecidableEq, Repr

namespace Language

def all : List Language :=
  [javascript, typescript, python, java, c, cpp, csharp, php, ruby, go, rust]

def tag : Language → String
  | javascript => "javascript"
  | typescript => "typescript"
  | python => "python"
  | java => "java"
  | c => "c"
  | cpp => "cpp"
  | csharp => "csharp"
  | php => "php"
  | ruby => "ruby"
  | go => "go"
  | rust => "rust"

def ofTag? (tag : String) : Option Language := all.find? (·.tag = tag)

def extensions : Language → List String
  | javascript => ["js", "jsx", "mjs", "cjs"]
  | typescript => ["ts", "tsx", "mts", "cts"]
  | python => ["py", "pyw"]
  | java => ["java"]
  | c => ["c", "h"]
  | cpp => ["cpp", "cc", "cxx", "hpp", "hh", "hxx"]
  | csharp => ["cs"]
  | php => ["php"]
  | ruby => ["rb"]
  | go => ["go"]
  | rust => ["rs"]

def ofExtension? (ext : String) : Option Language :=
  let lower := ext.map Char.toLower
  all.find? (·.extensions.contains lower)

/-- Comments start with `#` and have no form that spans lines. -/
def usesHashComments : Language → Bool
  | python | ruby => true
  | _ => false

def commentLeaders : Language → List String
  | python | ruby => ["#"]
  | php => ["//", "/*", "*", "#"]
  | _ => ["//", "/*", "*"]

end Language

end DocGap
