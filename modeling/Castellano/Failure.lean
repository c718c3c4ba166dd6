import Castellano.Files
import Castellano.Vocabulary.Listing

/-!
# Castellano.Failure

What stops an analysis before a sentence is judged: a vocabulary that cannot be read, a language
that is not supported, a word that is not in the vocabulary. A sentence that is ill formed is no
failure but a result.
-/

namespace Castellano

/-- Why there is nothing to analyze. -/
inductive Failure where
  | unreadable (path : String) (cause : ReadFailure)
  | listing (error : ListingError)
  | unsupportedLanguage (name : String)
  /-- The word at the given position, counted from zero, is not in the vocabulary. -/
  | unknownWord (word : String) (position : Nat)
  deriving DecidableEq

def ListingError.message (e : ListingError) : String :=
  match e.fault with
  | .malformed content =>
    s!"línea {e.line}: entrada mal formada '{content}' (formato: palabra|categoría|género)"
  | .unknownCategory name => s!"línea {e.line}: categoría desconocida '{name}'"
  | .unknownGender name => s!"línea {e.line}: género desconocido '{name}'"

def Failure.message : Failure → String
  | unreadable path cause => s!"no se pudo leer el vocabulario '{path}': {cause.message}"
  | listing error => error.message
  | unsupportedLanguage name => s!"idioma no soportado: {name}"
  | unknownWord word position => s!"palabra no reconocida en la posición {position}: '{word}'"

/-- Reads the listing in a file into a draft. -/
def Draft.loadFile (d : Draft) (files : Files) (path : String) : Draft × Except Failure Nat :=
  match files path with
  | .error cause => (d, .error (.unreadable path cause))
  | .ok text =>
    let (d', count) := d.load text
    (d', count.mapError Failure.listing)

end Castellano
