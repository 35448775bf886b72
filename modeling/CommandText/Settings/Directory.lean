import CommandText.Settings.Store
import CommandText.Value.Json
import CommandText.Value.Yaml.Document

/-!
# Searching the files of a directory

One way to find a file with settings. The places are tried in a fixed order; a place that is
missing, blank, or without a value is passed over. The first value found ends the search, and so
does the first file that cannot be read. A directory that does not exist has no files, but one whose
path cannot be followed is unreadable as a whole. What a script gives when it is run is left to a
parameter, and documents are read in plain notation only.
-/

namespace CommandText

/-- The files of a directory by name; the path is what the directory is called in messages. -/
structure Directory where
  path : Text
  files : Table Text
  /-- No step of the path is a file, and all are names that a directory may have. -/
  reachable : Bool := true

/-- How the settings stand in a file. -/
inductive Format where
  | json
  | yaml
  /-- The settings are one field of a JSON object that has other purposes, too. -/
  | manifest
  /-- The settings are what the file gives when it is run. -/
  | script

namespace Format

def manifestField : Text := "cmdtok"

/-- The value that a text holds, null if it holds none; the result is none if it is unreadable. -/
def read (runScript : Text → Option Value) (t : Text) : Format → Option Value
  | json => Value.Json.read t
  | yaml => Value.Yaml.read t
  | manifest =>
    match Value.Json.read t with
    | some .null => none
    | some v => some ((v.fields?.bind fun fields => fields.get? manifestField).getD .null)
    | none => none
  | script => runScript t

end Format

namespace Directory

def places : List (Text × Format) :=
  [
    ("package.json", .manifest),
    (".cmdtokrc", .yaml),
    (".cmdtokrc.json", .json),
    (".cmdtokrc.yaml", .yaml),
    (".cmdtokrc.yml", .yaml),
    ("cmdtok.config.js", .script),
    ("cmdtok.config.cjs", .script)
  ]

def pathOf (d : Directory) (name : Text) : Text := d.path ++ "/" ++ name

def searchIn (runScript : Text → Option Value) (d : Directory) : List (Text × Format) → Found
  | [] => .nothing
  | (name, format) :: rest =>
    match d.files.get? name with
    | none => searchIn runScript d rest
    | some t =>
      if t.all Text.isBlank then searchIn runScript d rest
      else
        match format.read runScript t with
        | none => .unreadable
        | some .null => searchIn runScript d rest
        | some v => .value (d.pathOf name) v

def search (runScript : Text → Option Value) (d : Directory) : Found :=
  if d.reachable then searchIn runScript d places else .unreadable

end Directory

end CommandText
