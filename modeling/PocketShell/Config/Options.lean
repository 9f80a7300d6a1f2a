import PocketShell.Bindings
import PocketShell.Config.Toml.Document

/-!
# Options of a shell

A configuration is a TOML text with the tables `env` and `files`, which hold texts alone. Everything
else in it is ignored.
-/

namespace PocketShell

structure Options where
  env : Bindings String := {}
  files : Bindings String := {}
deriving DecidableEq, Repr

namespace Options

/-- The key under which a date holds its text, where a table is wanted. -/
def dateKey : String := "$__toml_private_datetime"

def text? : Toml.Item → Option String
  | .scalar (.string text) => some text
  | _ => none

/-- An item as a table of texts. A date is one with a single entry. -/
def texts? : Toml.Item → Option (Bindings String)
  | .table _ entries | .inline _ entries =>
    (entries.mapM fun (entry : String × Toml.Item) =>
      (text? entry.2).map (entry.1, ·)).map Bindings.ofList
  | .scalar (.dateTime text) => some (Bindings.ofList [(dateKey, text)])
  | _ => none

/-- A table of texts that may be missing. -/
def tableOf? (entries : Toml.Entries) (key : String) : Option (Bindings String) :=
  match entries.lookup key with
  | none => some {}
  | some item => texts? item

/-- The options in a configuration, unless it is malformed. -/
def ofToml? (text : String) : Option Options := do
  let entries ← Toml.document? text
  return { env := ← tableOf? entries "env", files := ← tableOf? entries "files" }

end Options

end PocketShell
