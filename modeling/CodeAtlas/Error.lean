import CodeAtlas.Pattern.Reading
import CodeAtlas.Text.Draft
import CodeAtlas.Text.Plain
import CodeAtlas.Text.Utf8

/-!
# What can go wrong

Every failure has a cause, and every cause has one wording.
-/

namespace CodeAtlas

/-- Why the disk refuses an operation. -/
inductive DiskCause
  | notFound | alreadyExists | notADirectory | isADirectory | nameTooLong
  deriving DecidableEq, Repr

/-- The number and the wording of a cause. -/
def DiskCause.message : DiskCause → String
  | .notFound => "[Errno 2] No such file or directory"
  | .alreadyExists => "[Errno 17] File exists"
  | .notADirectory => "[Errno 20] Not a directory"
  | .isADirectory => "[Errno 21] Is a directory"
  | .nameTooLong => "[Errno 36] File name too long"

/-- What can go wrong. -/
inductive Error
  /-- The disk refuses an operation, on a path if one was named. -/
  | disk (cause : DiskCause) (path : Option String)
  /-- A path holds a character that no path can hold. -/
  | nullInPath
  /-- Some paths start at the root and others do not. -/
  | mixedRoots
  /-- A relative path was asked for, but the path is empty. -/
  | emptyPath
  /-- A file's bytes are no text. -/
  | notText (fault : Text.ByteFault)
  /-- A text has no bytes. -/
  | notStorable (fault : Text.HalfFault)
  /-- A terminal cannot show a text. -/
  | notShowable (fault : Text.PlainFault)
  /-- A text is no pattern. -/
  | pattern (text : String) (fault : Pattern.Fault)
  /-- A pattern of path components is empty. -/
  | emptyPathPattern
  /-- A pattern of path components is not acceptable as it is written. -/
  | unacceptablePathPattern (text : String)
  /-- A pattern of path components starts at the root where it may not. -/
  | rootedPathPattern
  /-- Two stars stand next to other characters in a component. -/
  | mixedDoubleStar
  /-- A record lacks an entry. -/
  | missingEntry (key : String)
  /-- A list has no element at a position. -/
  | noSuchIndex
  /-- A value is asked for something that its type does not have. -/
  | noAttribute (typeName member : String)
  /-- A text is asked for an entry. -/
  | textHasNoEntries
  /-- A list is asked for an entry. -/
  | listHasNoEntries
  /-- A value that has no entries is asked for one. -/
  | noEntries (typeName : String)
  /-- A value is no collection. -/
  | notIterable (typeName : String)
  /-- An extension to look for is not a text. -/
  | extensionNotText (typeName : String)
  /-- The language version is not one that can be read. -/
  | unsupportedVersion
  /-- A chunk would have no length. -/
  | chunkOfNothing
  /-- A number of tokens per character is zero. -/
  | divisionByZero
  /-- A quotient exceeds the numbers with a fraction. -/
  | quotientTooLarge
  /-- A whole number exceeds the numbers with a fraction. -/
  | wholeTooLarge
  /-- A number with a fraction has no whole neighbour. -/
  | infiniteToWhole
  /-- What is no number is to be rounded. -/
  | undefinedToWhole
  /-- A whole number has more digits than are converted; if it was to be read, they were counted. -/
  | tooManyDigits (count : Option Nat)
  /-- A text is no whole number. -/
  | notAWhole (text : String)
  /-- There is no place for a database. -/
  | databaseUnavailable
  /-- A database lacks a table. -/
  | noSuchTable (name : String)
  /-- A file that should hold a database does not. -/
  | notADatabase
  /-- A database cannot be written. -/
  | readOnlyDatabase
  /-- A failed read of the cache cannot be reported. -/
  | unreportableRead
  /-- Content of the cache that is damaged cannot be reported. -/
  | unreportableContent
  /-- A failed write of the cache cannot be reported. -/
  | unreportableWrite
  /-- A failure with a wording of its own. -/
  | other (text : String)
  /-- A program part is not there. -/
  | missingModule (name : String)

/-- The wording of an error. -/
def Error.message : Error → String
  | disk cause none => cause.message
  | disk cause (some path) => s!"{cause.message}: {Text.quoted path}"
  | nullInPath => "embedded null byte"
  | mixedRoots => "Can't mix absolute and relative paths"
  | emptyPath => "no path specified"
  | notText fault => fault.message
  | notStorable fault => fault.message
  | notShowable fault => fault.message
  | pattern text fault => fault.message text
  | emptyPathPattern => "empty pattern"
  | unacceptablePathPattern text => s!"Unacceptable pattern: {Text.quoted text}"
  | rootedPathPattern => "Non-relative patterns are unsupported"
  | mixedDoubleStar => "Invalid pattern: '**' can only be an entire path component"
  | missingEntry key => Text.quoted key
  | noSuchIndex => "list index out of range"
  | noAttribute typeName member => s!"'{typeName}' object has no attribute '{member}'"
  | textHasNoEntries => "string indices must be integers, not 'str'"
  | listHasNoEntries => "list indices must be integers or slices, not str"
  | noEntries typeName => s!"'{typeName}' object is not subscriptable"
  | notIterable typeName => s!"'{typeName}' object is not iterable"
  | extensionNotText typeName => s!"endswith first arg must be str or a tuple of str, not {typeName}"
  | unsupportedVersion => ""
  | chunkOfNothing => "range() arg 3 must not be zero"
  | divisionByZero => "integer division or modulo by zero"
  | quotientTooLarge => "integer division result too large for a float"
  | wholeTooLarge => "int too large to convert to float"
  | infiniteToWhole => "cannot convert float infinity to integer"
  | undefinedToWhole => "cannot convert float NaN to integer"
  | tooManyDigits count =>
    let found := (count.map fun n => s!": value has {n} digits").getD ""
    s!"Exceeds the limit (4300 digits) for integer string conversion{found}; " ++
      "use sys.set_int_max_str_digits() to increase the limit"
  | notAWhole text =>
    let shown := String.ofList ((Text.quoted text).toList.take 200)
    s!"invalid literal for int() with base 10: {shown}"
  | databaseUnavailable => "unable to open database file"
  | noSuchTable name => s!"no such table: {name}"
  | notADatabase => "file is not a database"
  | readOnlyDatabase => "attempt to write a readonly database"
  | unreportableRead =>
    "cannot access local variable 'pickle' where it is not associated with a value"
  | unreportableContent | unreportableWrite => "catching classes that do not inherit from BaseException is not allowed"
  | other text => text
  | missingModule name => s!"No module named {Text.quoted name}"

end CodeAtlas
