import CodeAtlas.Glob.Basic
import CodeAtlas.Shell.Command
import CodeAtlas.Workspace

/-!
# Installing query files

Query files are copied from the packages that bring them along: a language pack, the packages of single
languages that it names, and a tagger.
-/

namespace CodeAtlas

/-- An installed package, with the names that it provides. -/
structure Package where
  name : String
  directory : String
  provided : List String := []
  deriving DecidableEq, Repr

namespace Queries

/-- The name of the language pack. -/
def packName : String := "tree_sitter_language_pack"

/-- The name of the tagger. -/
def taggerName : String := "grep_ast"

/-- The start of the names of packages for single languages. -/
def languageStart : String := "tree_sitter_"

/-- The pattern of the names of query files. -/
def namePattern : String := "*-tags.scm"

/-- The entries of a directory that are named like query files. -/
def namesIn (d : Disk) (directory : String) : List String :=
  match d.entries directory with
  | .ok entries => (entries.map Prod.fst).filter (Glob.accepts namePattern)
  | .error _ => []

/-- Copies a file; into a directory it goes under its own name. -/
def copy (source target : String) : Job Unit := do
  let d ← Job.disk
  let target := if d.isDirectory target then Path.join target (Path.baseName source) else target
  let content ← Job.look (·.readContent source)
  let time := (← get).now
  Job.change fun d => d.writeContent target content time

/-- Copies all query files of a package. -/
def copyAll (target : String) (p : Package) : Job Unit := do
  let directory := Path.join p.directory "queries"
  (namesIn (← Job.disk) directory).forM fun name => do
    Job.printLine s!"Copying {name}"
    copy (Path.join directory name) (Path.join target name)

/-- A package by its name, or the first part of the name that is not there. -/
def findPackage (packages : List Package) (name : String) : Except String Package :=
  match (Shell.dottedStarts name).find? fun part => packages.all (·.name != part) with
  | some part => .error part
  | none =>
    match packages.find? (·.name == name) with
    | some p => .ok p
    | none => .error name

/-- Copies the query file of the package of a language. -/
def copyLanguage (target : String) (packages : List Package) (name : String) : Job Unit := do
  match findPackage packages name with
  | .error missing => do
    let complaint := (Error.missingModule missing).message
    Job.printLine s!"Error with {name}: {complaint}"
  | .ok p => do
    let file := Path.join (Path.join p.directory "queries") "tags.scm"
    if (← Job.disk).exists? file then
      let language := Text.replaceAll name languageStart ""
      Job.printLine s!"Copying {language} tags"
      copy file (Path.join target s!"{language}-tags.scm")

/-- Copies the query files of packages to the directory for them, and tells about it. -/
def install (target : String) (packages : List Package) : Job Unit := do
  let d ← Job.disk
  if !d.isDirectory target then Job.change (·.makeDirectory target)
  Job.printLine s!"Installing query files to {target}"
  match packages.find? (·.name == packName) with
  | some pack => do
    Job.printLine s!"Found tree-sitter-language-pack at {pack.directory}"
    copyAll target pack
    (pack.provided.filter (Text.startsWith · languageStart)).forM (copyLanguage target packages)
  | none => Job.printLine "tree-sitter-language-pack not found"
  match packages.find? (·.name == taggerName) with
  | some tagger => do
    Job.printLine s!"Found grep-ast at {tagger.directory}"
    copyAll target tagger
  | none => Job.printLine "grep-ast not found"
  let installed := (namesIn (← Job.disk) target).length
  Job.printLine s!"Installed {installed} query files"

end Queries

end CodeAtlas
