import EntityLint.Files.Search
import EntityLint.Run.Linter

/-!
# Checking the files of a directory

* `DirectoryError`: what stops a check;
* `Linter.checkPaths`: the results for some files, one after the other;
* `Linter.checkDirectory`: the result for the files of a search.

A file without a token stream is passed over, or stops the check if that is wanted.
-/

namespace EntityLint

/-- What stops the check of a directory. -/
inductive DirectoryError
  /-- A pattern of the search is not well formed. -/
  | badPattern
  /-- A path that was found is not that of a file. -/
  | unreadable (path : Text)
  /-- A file has no token stream. -/
  | unparsed (failure : ParseFailure)
  deriving DecidableEq, Repr

namespace Linter

/-- The result for the file at a path. -/
def checkPath (l : Linter) (strict : Bool) (t : FileTree) (path : Text) :
    Except DirectoryError LintResult :=
  match t.read? path with
  | none => .error (.unreadable path)
  | some source =>
    match l.check (String.ofList path) source with
    | .ok result => .ok result
    | .error failure => if strict then .error (.unparsed failure) else .ok .empty

/-- The result for the files at some paths, up to the first error. A strict check stops at a file
without a token stream. -/
def checkPaths (l : Linter) (strict : Bool) (t : FileTree) (paths : List Text) :
    Except DirectoryError LintResult := do
  let results ← paths.mapM (l.checkPath strict t)
  return results.foldl LintResult.extend .empty

/-- The result for the files of a search, with all violations in order. -/
def checkDirectory (l : Linter) (strict : Bool) (s : Search) (t : FileTree) :
    Except DirectoryError LintResult :=
  match s.paths? t with
  | none => .error .badPattern
  | some paths => do
    let result ← l.checkPaths strict t paths
    return { result with violations := sortViolations result.violations }

end Linter

end EntityLint
