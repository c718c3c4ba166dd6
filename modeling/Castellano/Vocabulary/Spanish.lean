import Castellano.Vocabulary.Basic

/-!
# Castellano.Vocabulary.Spanish

The built-in Spanish vocabulary. The words are normal (capital letters, no accents), and no word
belongs to two classes.
-/

namespace Castellano
namespace Spanish

/-- The definite articles that go with masculine nouns. -/
def masculineArticles : List String := ["EL", "LOS"]

/-- The definite articles that go with feminine nouns. -/
def feminineArticles : List String := ["LA", "LAS"]

/-- The indefinite articles, which go with any noun. -/
def neutralArticles : List String := ["UN", "UNA", "UNOS", "UNAS"]

def masculineNouns : List String :=
  ["GATO", "PERRO", "COCHE", "LIBRO", "TELEFONO", "JARDIN", "HOSPITAL", "PARQUE",
    "PAIS", "MUNDO", "SOL", "FUEGO", "CHICO", "HOMBRE", "PAPA",
    "HERMANO", "AMIGO", "PROFESOR"]

def feminineNouns : List String :=
  ["CASA", "MESA", "SILLA", "COMPUTADORA", "VENTANA", "PUERTA", "ESCUELA",
    "CIUDAD", "LUNA", "ESTRELLA", "AGUA", "CHICA", "MUJER", "COMIDA", "MAMA",
    "HERMANA", "AMIGA", "ESTUDIANTE"]

/-- The verbs, all in the third person singular. -/
def verbs : List String :=
  ["CORRE", "SALTA", "COME", "BEBE", "DUERME", "CAMINA", "VUELA", "NADA",
    "ESTUDIA", "TRABAJA", "JUEGA", "CANTA", "BAILA", "ESCRIBE", "LEE",
    "HABLA", "ESCUCHA", "MIRA", "PIENSA", "SUEÑA", "ANDA", "VIVE",
    "ESTA", "ES", "TIENE", "HACE", "VE", "OYE", "TOCA", "SIENTE",
    "LLEGA", "SALE", "ENTRA", "SUBE", "BAJA", "ABRE", "CIERRA", "BUSCA"]

def adjectives : List String :=
  ["GRANDE", "PEQUEÑO", "BONITO", "FEO", "RAPIDO", "LENTO", "ALTO",
    "NEGRO", "BLANCO", "ROJO", "AZUL", "VERDE", "AMARILLO", "FELIZ", "TRISTE",
    "NUEVO", "VIEJO", "JOVEN", "FUERTE", "DEBIL", "INTELIGENTE"]

def prepositions : List String :=
  ["EN", "DE", "CON", "SIN", "PARA", "POR", "SOBRE", "BAJO", "ENTRE", "DESDE"]

def conjunctions : List String := ["Y", "O", "PERO", "AUNQUE", "PORQUE", "CUANDO", "SI"]

/-- The built-in words as a draft, which further words can extend. -/
def draft : Draft :=
  Draft.empty
    |>.extend .article .masculine masculineArticles
    |>.extend .article .feminine feminineArticles
    |>.extend .article .neutral neutralArticles
    |>.extend .noun .masculine masculineNouns
    |>.extend .noun .feminine feminineNouns
    |>.extend .verb .neutral verbs
    |>.extend .adjective .neutral adjectives
    |>.extend .preposition .neutral prepositions
    |>.extend .conjunction .neutral conjunctions

end Spanish

def Vocabulary.spanish : Vocabulary := Spanish.draft.build

end Castellano
