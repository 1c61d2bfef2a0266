import Cadence.Text.Name

/-!
# The chord table

The built-in chords by name, each with its intervals in semitones above the root. The order is
the one that lists and random draws use.
-/

namespace Cadence.Chord

/-- Every built-in chord as it is spelled. -/
def builtIn : List (String × List Int) :=
  [("AUGMENTED", [0, 4, 8]),
   ("AUGMENTED_ELEVENTH", [0, 4, 7, 10, 2, 6]),
   ("AUGMENTED_MAJOR_SEVENTH", [0, 4, 8, 11]),
   ("AUGMENTED_SEVENTH", [0, 4, 8, 10]),
   ("AUGMENTED_SIXTH", [0, 6, 8]),
   ("DIMINISHED", [0, 3, 6]),
   ("DIMINISHED_MAJOR_SEVENTH", [0, 3, 6, 11]),
   ("DIMINISHED_SEVENTH", [0, 3, 6, 9]),
   ("DOMINANT", [0, 4, 7]),
   ("DOMINANT_ELEVENTH", [0, 4, 7, 10, 2, 5]),
   ("DOMINANT_MINOR_NINTH", [0, 4, 7, 10, 1]),
   ("DOMINANT_NINTH", [0, 4, 7, 10, 2]),
   ("DOMINANT_PARALLEL", [0, 3, 7]),
   ("DOMINANT_SEVENTH", [0, 4, 7, 10]),
   ("DOMINANT_SEVENTH_FLAT_FIVE", [0, 4, 6, 10]),
   ("DOMINANT_SEVENTH_RAISED_NINTH", [0, 4, 7, 10, 3]),
   ("DOMINANT_THIRTEENTH", [0, 4, 7, 10, 2, 5, 9]),
   ("DREAM", [0, 5, 6, 7]),
   ("ELEKTRA", [0, 7, 9, 1, 4]),
   ("FARBEN", [0, 8, 11, 4, 9]),
   ("HALF_DIMINISHED_SEVENTH", [0, 3, 6, 10]),
   ("HARMONIC_SEVENTH", [0, 4, 7, 10]),
   ("AUGMENTED_NINTH", [0, 4, 7, 10, 3]),
   ("LEADING_TONE", [0, 3, 6]),
   ("LYDIAN", [0, 4, 7, 11, 6]),
   ("MAGIC", [0, 1, 5, 6, 10, 0, 3, 5]),
   ("MAJOR", [0, 4, 7]),
   ("MAJOR_ELEVENTH", [0, 4, 7, 11, 2, 5]),
   ("MAJOR_SEVENTH", [0, 4, 7, 11]),
   ("MAJOR_SEVENTH_SHARP_ELEVENTH", [0, 4, 8, 11, 6]),
   ("MAJOR_SIXTH", [0, 4, 7, 9]),
   ("MAJOR_SIXTH_NINTH", [0, 4, 7, 9, 2]),
   ("MAJOR_NINTH", [0, 4, 7, 11, 2]),
   ("MAJOR_THIRTEENTH", [0, 4, 7, 11, 2, 6, 9]),
   ("MEDIANT", [0, 3, 7]),
   ("MINOR", [0, 3, 7]),
   ("MINOR_ELEVENTH", [0, 3, 7, 10, 2, 5]),
   ("MINOR_MAJOR_SEVENTH", [0, 3, 7, 11]),
   ("MINOR_NINTH", [0, 3, 7, 10, 2]),
   ("MINOR_SEVENTH", [0, 3, 7, 10]),
   ("MINOR_SIXTH", [0, 3, 7, 9]),
   ("MINOR_SIXTH_NINTH", [0, 3, 7, 9, 2]),
   ("MINOR_THIRTEENTH", [0, 3, 7, 10, 2, 5, 9]),
   ("MU", [0, 2, 4, 7]),
   ("MYSTIC", [0, 6, 10, 4, 9, 2]),
   ("NEAPOLITAN", [1, 5, 8]),
   ("NINTH_AUGMENTED_FIFTH", [0, 4, 8, 10, 2]),
   ("NINTH_FLAT_FIFTH", [0, 4, 6, 10, 2]),
   ("NORTHERN_LIGHTS", [1, 2, 8, 0, 3, 6, 7, 10, 11, 4, 7]),
   ("ODE_TO_NAPOLEON_HEXACHORD", [0, 1, 4, 5, 8, 9]),
   ("PETRUSHKA", [0, 1, 4, 6, 7, 10]),
   ("POWER", [0, 7]),
   ("PSALMS", [0, 3, 7]),
   ("SECONDARY_DOMINANT", [0, 4, 7]),
   ("SECONDARY_LEADING_TONE", [0, 3, 6]),
   ("SECONDARY_SUPERTONIC", [0, 3, 7]),
   ("SEVEN_SIX", [0, 4, 7, 9, 10]),
   ("SEVENTH_FLAT_NINE", [0, 4, 7, 10, 1]),
   ("SEVENTH_SUSPENSION_FOUR", [0, 5, 7, 10]),
   ("SO_WHAT", [0, 5, 10, 3, 7]),
   ("SUSPENDED", [0, 5, 7]),
   ("SUBDOMINANT", [0, 4, 7]),
   ("SUBDOMINANT_PARALLEL", [0, 3, 7]),
   ("SUBMEDIANT", [0, 3, 7]),
   ("SUBTONIC", [0, 4, 7]),
   ("SUPERTONIC", [0, 3, 7]),
   ("THIRTEENTH_FLAT_NINTH", [0, 4, 7, 10, 1, 12, 9]),
   ("THIRTEENTH_FLAT_NINTH_FLAT_FIFTH", [0, 4, 6, 10, 1, 12, 9]),
   ("TONIC_COUNTER_PARALLEL", [0, 3, 7]),
   ("TONIC", [0, 4, 7]),
   ("TONIC_PARALLEL", [0, 3, 7]),
   ("TRISTAN", [0, 3, 6, 10]),
   ("VIENNESE_TRICHORD", [0, 1, 6, 7])]

/-- Every built-in chord. -/
def table : List (Name × List Int) := builtIn.map fun (name, intervals) => (name, intervals)

end Cadence.Chord
