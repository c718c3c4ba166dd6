import Castellano.CommandLine.Options

/-!
# Castellano.CommandLine.Usage

What is said about the use of the program.
-/

namespace Castellano
namespace CommandLine

/-- The commands and options of the program, a line each. -/
def usageLines : List String :=
  ["Uso: castellano [OPCIONES] <COMANDO>",
    "",
    "Comandos:",
    "  recognize PALABRA        reconoce una palabra completa",
    "  prefix TEXTO             verifica un prefijo y muestra sus continuaciones",
    "  classify PALABRA...      clasifica palabras",
    "  parse PALABRA...         analiza una oración",
    "  sequence PALABRA...      construye oraciones de artículo, sustantivo y verbo",
    "  agreement DET SUST       comprueba la concordancia de género",
    "  stats                    estadísticas del autómata y la gramática",
    "  help [COMANDO]           muestra esta ayuda",
    "",
    "Opciones:",
    "  -l, --lang IDIOMA        idioma (por defecto, es)",
    "  -d, --vocab ARCHIVO      vocabulario adicional",
    "  --format text|json       formato de salida",
    "  --no-agreement           no comprueba la concordancia",
    "  -v, --verbose            más detalle",
    "  -h, --help               muestra esta ayuda",
    "  -V, --version            muestra la versión"]

def usage : String := String.join (usageLines.map fun line => line ++ "\n")

def version : String := "castellano 0.1.0\n"

def Refusal.message : Refusal → String
  | unknownArgument => "argumento inesperado"
  | invalidValue => "falta un valor o no es válido"
  | tooManyValues => "la opción no lleva valor"
  | argumentConflict => "la opción se repite"
  | missingRequiredArgument => "falta un argumento del comando"
  | missingSubcommand => "falta el comando"
  | invalidSubcommand => "comando desconocido"
  | nothingAsked => "no hay argumentos"
  | displayHelp => "ayuda"
  | displayVersion => "versión"

end CommandLine
end Castellano
