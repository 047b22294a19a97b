import CueCheck.Cue
import CueCheck.Text.CodePoint

/-!
# Phrases and voices

A phrase is spoken one syllable at a time; a syllable may be a cue.

* `phrase?` gives the syllables of a phrase by its name, `voiceOfName` the voice by its name.
-/

namespace CueCheck

open CueKind

/-- The phrases and their syllables. -/
def phrases : List (String × List (Option CueKind)) :=
  [("SayReaDyGetSetGoNew", [some get, some set, some get, some set, some go]),
    ("SayGetSetGo", [some get, some set, some go]),
    ("SayReaDyGetSetOne", [some get, some set, some get, some set, some (pulse 1)]),
    ("SayGetSetOne", [some get, some set, some (pulse 1)]),
    ("JustSayRea", [some get]),
    ("JustSayDy", [some set]),
    ("JustSayGet", [some get]),
    ("JustSaySet", [some set]),
    ("JustSayGo", [some go]),
    ("JustSayStop", [some stop]),
    ("JustSayAndStop", [some stop]),
    ("Count1", [some (pulse 1)]),
    ("Count2", [some (pulse 2)]),
    ("Count3", [some (pulse 3)]),
    ("Count4", [some (pulse 4)]),
    ("Count5", [some (pulse 5)]),
    ("SayReadyGetSetGo", [none, none, some get, some set, some go])]

/-- The phrase of an event that names none. -/
def defaultPhrase : String := "SayReadyGetSetGo"

/-- The names under which an event may ask for a voice. -/
def voiceNames : List (String × Voice) :=
  [("Nurse", .nurse), ("NurseTired", .nurse), ("IanExcited", .ian), ("IanCalm", .ian),
    ("IanSlow", .ian)]

/-- The syllables of a phrase. -/
def phrase? (name : Text) : Option (List (Option CueKind)) :=
  Text.lookup phrases name

/-- The voice of a name; a name that is none is the nurse's. -/
def voiceOfName (name : Text) : Voice :=
  (Text.lookup voiceNames name).getD .nurse

end CueCheck
