import CodeAtlas.Disk.Change
import CodeAtlas.Text.Case

/-!
# Kinds of files
-/

namespace CodeAtlas.Files

/-- Extensions of images. -/
def imageExtensions : List String := [".png", ".jpg", ".jpeg", ".gif", ".bmp", ".tiff", ".webp", ".pdf"]

/-- Whether a name ends like that of an image. -/
def isImageName (name : String) : Bool := imageExtensions.any (Text.endsWith name)

/-- Whether the extension of a path is that of an image or a drawing, in whatever case. -/
def isImage (path : String) : Bool :=
  (imageExtensions ++ [".svg", ".ico"]).contains (Text.lower (Path.extension path))

/-- The number of bytes by which a file is judged. -/
def sampleSize : Nat := 8192

/-- Whether a file can be read and has no null byte near the start. -/
def isText (d : Disk) (path : String) : Except Error Bool :=
  match d.readBytes path with
  | .ok bytes => .ok (!(bytes.take sampleSize).contains 0)
  | .error (.disk _ _) => .ok false
  | .error e => .error e

/-- Languages by extension. -/
def languages : List (String × String) :=
  [(".py", "python"), (".js", "javascript"), (".ts", "typescript"), (".tsx", "typescript"),
    (".java", "java"), (".c", "c"), (".h", "c"), (".cpp", "cpp"), (".hpp", "cpp"), (".cs", "csharp"),
    (".rs", "rust"), (".go", "go"), (".rb", "ruby"), (".php", "php"), (".sh", "bash"),
    (".html", "html"), (".css", "css"), (".md", "markdown"), (".json", "json"), (".yml", "yaml"),
    (".yaml", "yaml"), (".xml", "xml")]

/-- The language of a file by its extension. -/
def language? (path : String) : Option String := languages.lookup (Text.lower (Path.extension path))

/-- Languages whose tags can be extracted, by extension. -/
def taggedLanguages : List (String × String) :=
  [(".py", "python"), (".js", "javascript"), (".ts", "typescript"), (".tsx", "typescript"),
    (".java", "java"), (".c", "c"), (".h", "c"), (".cpp", "cpp"), (".hpp", "cpp"), (".cc", "cpp"),
    (".hh", "cpp"), (".cxx", "cpp"), (".hxx", "cpp"), (".cs", "csharp"), (".go", "go"),
    (".rb", "ruby"), (".rs", "rust"), (".php", "php"), (".swift", "swift")]

/-- The language of a file whose tags can be extracted. -/
def taggedLanguage? (path : String) : Option String :=
  taggedLanguages.lookup (Text.lower (Path.extension path))

/-- Grammars that are built in, by language: none are, so that files are parsed by other programs or line by line. -/
def builtInGrammars : List (String × String) := []

/-- The grammar of a language, by which a parser is made. -/
def grammar? (language : String) : Option String := builtInGrammars.lookup language

end CodeAtlas.Files
