import LayeredConfig.Layout
import LayeredConfig.Text.Quoted

/-!
# Errors

The causes for which a compilation or an application of templates stops, and the message of each
cause. What goes wrong with a single target while templates are applied is not an error but part
of the report.
-/

namespace LayeredConfig

/-! ## The file system -/

/-- The reason the operating system gives for refusing an operation. -/
inductive OsError where
  | notFound
  | busy
  | exists
  | notADirectory
  | isADirectory
  | linkLoop
  /-- The operation succeeded, but what was read is not text. -/
  | invalidText
  deriving DecidableEq

/-- The words for a reason. -/
def OsError.message : OsError → Text
  | .notFound => "No such file or directory (os error 2)".toList
  | .busy => "Device or resource busy (os error 16)".toList
  | .exists => "File exists (os error 17)".toList
  | .notADirectory => "Not a directory (os error 20)".toList
  | .isADirectory => "Is a directory (os error 21)".toList
  | .linkLoop => "Too many levels of symbolic links (os error 40)".toList
  | .invalidText => "stream did not contain valid UTF-8".toList

/-- What stops a walk through a directory. -/
inductive WalkFault where
  /-- An entry could not be looked at. -/
  | entry (reason : OsError)
  /-- A link leads back to a directory above it. -/
  | loop (ancestor : Text)
  deriving DecidableEq

/-- An operation on files that failed. -/
inductive FileError where
  /-- Reading or writing at a path failed. -/
  | access (path : Text) (reason : OsError)
  /-- Listing the files below a directory failed at a path. -/
  | walk (path : Text) (fault : WalkFault)
  /-- What was to be listed is not a directory. -/
  | notADirectory (path : Text)
  deriving DecidableEq

/-- The words for what stopped a walk at a path. -/
def WalkFault.message (path : Text) : WalkFault → Text
  | .entry reason => "IO error for operation on ".toList ++ path ++ ": ".toList ++ reason.message
  | .loop ancestor =>
    "File system loop found: ".toList ++ path ++ " points to an ancestor ".toList ++ ancestor

/-- The message of a failed operation on files. -/
def FileError.message : FileError → Text
  | .access path reason => "I/O error at ".toList ++ path ++ ": ".toList ++ reason.message
  | .walk path fault => "Failed to walk ".toList ++ path ++ ": ".toList ++ fault.message path
  | .notADirectory path => "Not a directory: ".toList ++ path

/-! ## Model files -/

/-- Why the content of a model file is no configuration tree. -/
inductive ModelFault where
  /-- The content is not well formed in its format. -/
  | malformed
  /-- The content is not a mapping at the top. -/
  | topLevel
  /-- A sequence holds something other than scalars. -/
  | nestedSequence
  /-- A key is neither a string nor a number nor a truth value. -/
  | unsupportedKey (shown : Text)
  deriving DecidableEq

/-- The words for what is wrong with a model file. -/
def ModelFault.message : ModelFault → Text
  | .malformed => "malformed content".toList
  | .topLevel => "top-level value must be a mapping".toList
  | .nestedSequence => "sequences may only contain scalar values".toList
  | .unsupportedKey shown => "unsupported mapping key ".toList ++ shown

/-! ## All errors -/

/-- The causes for which a whole operation stops. -/
inductive Error where
  | noModelDirectories
  | modelDirectoryNotFound (path : Text)
  | modelParse (file : Text) (fault : ModelFault)
  | invalidKey (key : Text)
  | invalidRule (rule : Text)
  | emptyConfiguration
  | templateDirectoryNotFound (path : Text)
  | targetsMissing (missing : List Text)
  | file (error : FileError)
  deriving DecidableEq

/-- The message of an error. -/
def Error.message : Error → Text
  | .noModelDirectories => "No model directories given".toList
  | .modelDirectoryNotFound path => "Model directory not found: ".toList ++ path
  | .modelParse path fault =>
    "Failed to parse model file ".toList ++ path ++ ": ".toList ++ fault.message
  | .invalidKey key =>
    "Invalid key ".toList ++ Text.quote key ++ ": keys must not contain empty segments".toList
  | .invalidRule rule =>
    "Invalid rule ".toList ++ Text.quote rule ++ ": expected <segment>=<value>".toList
  | .emptyConfiguration => "No model files match the given rules".toList
  | .templateDirectoryNotFound path => "Template directory not found: ".toList ++ path
  | .targetsMissing missing =>
    "Target files missing: ".toList ++ Text.join ", ".toList missing
  | .file error => error.message

end LayeredConfig
