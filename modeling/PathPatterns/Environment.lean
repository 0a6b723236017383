/-!
# Environments

An environment gives some names a value, as bytes. A value that is not valid UTF-8 is no text, and
a name with such a value counts as unset.

## Main definitions

* `Environment.value?`: how a variable of the process is looked up as text.
-/

namespace PathPatterns

/-- Which names are set, and to which bytes. -/
structure Environment where
  /-- The bytes that a name is set to. -/
  bytes? : String → Option ByteArray

namespace Environment

/-- The environment that sets nothing. -/
def empty : Environment := ⟨fun _ => none⟩

/-- The environment that makes exactly the listed settings; of two settings of one name the later
holds. -/
def ofList (settings : List (String × ByteArray)) : Environment :=
  ⟨fun name => settings.reverse.lookup name⟩

/-- The text that a name stands for, if it is set to valid UTF-8. -/
def value? (env : Environment) (name : String) : Option String :=
  (env.bytes? name).bind String.fromUTF8?

@[simp]
theorem value?_empty (name : String) : empty.value? name = none := rfl

end Environment

end PathPatterns
