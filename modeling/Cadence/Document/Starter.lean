/-!
# The starter document

A document that shows every field and explains it, for authors to begin with. It compiles as it is.
-/

namespace Cadence.Document

/-- The lines of the starter document. -/
def starterLines : List String :=
  ["# Name of the composition",
   "name: default_composition",
   "",
   "# The default master parameters of the composition.",
   "# A pattern can set its own master values to override these.",
   "master:",
   "    # The musical key to transpose the chords.",
   "    # Supported values: C, C#, D, D#, E, F, F#, G, G#, A, A#, B",
   "    key: F#",
   "",
   "    # The beats per minute of the composition.",
   "    time: 120",
   "",
   "    # The time signature of the composition.",
   "    # Beat numerator supported values: must be > 0.",
   "    # Beat denominator supported values: 2, 4, 8, 16, 32, 64",
   "    # e.g 3/8 is supported, 0/7 is not supported.",
   "    signature: [4, 4]",
   "",
   "# Composition defined chords.",
   "chords:",
   "    # [chord_name, [chord intervals]].",
   "    - [custom1, [0, 3, 8]]",
   "    - [custom2, [0, 5]]",
   "",
   "# The composition's chord patterns/progressions.",
   "patterns:",
   "    - name: part_a",
   "      # Each pattern event = [bar, beat, beat interval, chord name, chord transpose].",
   "      pattern:",
   "          - [1, 1, 1, MAJOR_SEVENTH, 0]",
   "          - [1, 3, 1, custom1, 0]",
   "          - [2, 1, 1, MAJOR_NINTH, 0]",
   "          - [2, 3, 1, custom1, 0]",
   "          - [3, 1, 1, MAJOR_SEVENTH, 3]",
   "          - [3, 2, 1, custom1, 0]",
   "          - [4, 1, 1, MAJOR_NINTH, -3]",
   "          - [4, 2, 1, \"?\", 0] # ? = Select a random user defined chord.",
   "",
   "    - name: part_b",
   "      master:",
   "          signature: [3, 4]",
   "          key: C#",
   "          time: 69",
   "      # Each pattern event = [bar, beat, beat interval, chord name, chord transpose].",
   "      pattern:",
   "          - [1, 1, 1, MAJOR_SEVENTH, 0]",
   "          - [1, 2, 1, custom1, 0]",
   "          - [2, 1, 5, MAJOR_NINTH, 0]",
   "          - [2, 2, 1, custom1, 0]",
   "          - [3, 1, 5, MAJOR_SEVENTH, 3]",
   "          - [3, 2, 1, custom1, 0]",
   "          - [4, 1, 1, MAJOR_NINTH, -3]",
   "          - [4, 2, 1, \"??\", 0] # ?? = Select a random chord from user defined and internal chords."]

/-- The starter document. -/
def starter : String := String.join (starterLines.map (· ++ "\n"))

end Cadence.Document
