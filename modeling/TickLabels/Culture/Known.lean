import TickLabels.Culture

/-!
# Known cultures

Cultures for the United States, Germany, France and India. Each is found by
its name, the first three also by their language, in either case of
letters.
-/

namespace TickLabels

namespace Culture

/-- Names written as strings. -/
def texts (names : List String) : List Text :=
  names.map String.toList

/-- English as in the United States. -/
def enUS : Culture where
  name := "en-US".toList
  decimalSeparator := '.'
  groupSeparator := ','
  groupSizes := [3]
  negativeSign := ['-']
  percentSymbol := ['%']
  permilleSymbol := ['‰']
  currencySymbol := ['$']
  currencyPositivePattern := "$n".toList
  currencyNegativePattern := "($n)".toList
  percentPositivePattern := "n %".toList
  percentNegativePattern := "-n %".toList
  numberNegativePattern := "-n".toList
  nanSymbol := "NaN".toList
  positiveInfinitySymbol := "Infinity".toList
  negativeInfinitySymbol := "-Infinity".toList
  firstDayOfWeek := .sunday
  dayNames := texts
    ["Sunday", "Monday", "Tuesday", "Wednesday", "Thursday", "Friday", "Saturday"]
  abbreviatedDayNames := texts ["Sun", "Mon", "Tue", "Wed", "Thu", "Fri", "Sat"]
  monthNames := texts
    ["January", "February", "March", "April", "May", "June", "July", "August", "September",
      "October", "November", "December"]
  abbreviatedMonthNames := texts
    ["Jan", "Feb", "Mar", "Apr", "May", "Jun", "Jul", "Aug", "Sep", "Oct", "Nov", "Dec"]

/-- German as in Germany. -/
def deDE : Culture :=
  { enUS with
    name := "de-DE".toList
    decimalSeparator := ','
    groupSeparator := '.'
    currencySymbol := ['€']
    currencyPositivePattern := "n $".toList
    currencyNegativePattern := "-n $".toList
    firstDayOfWeek := .monday
    dayNames := texts
      ["Sonntag", "Montag", "Dienstag", "Mittwoch", "Donnerstag", "Freitag", "Samstag"]
    abbreviatedDayNames := texts ["So", "Mo", "Di", "Mi", "Do", "Fr", "Sa"]
    monthNames := texts
      ["Januar", "Februar", "März", "April", "Mai", "Juni", "Juli", "August", "September",
        "Oktober", "November", "Dezember"]
    abbreviatedMonthNames := texts
      ["Jan", "Feb", "Mär", "Apr", "Mai", "Jun", "Jul", "Aug", "Sep", "Okt", "Nov", "Dez"] }

/-- French as in France. Groups are set apart by a no-break space. -/
def frFR : Culture :=
  { enUS with
    name := "fr-FR".toList
    decimalSeparator := ','
    groupSeparator := '\u00a0'
    currencySymbol := ['€']
    currencyPositivePattern := "n $".toList
    currencyNegativePattern := "-n $".toList
    nanSymbol := "Non Numérique".toList
    positiveInfinitySymbol := "+Infini".toList
    negativeInfinitySymbol := "-Infini".toList
    firstDayOfWeek := .monday
    dayNames := texts
      ["dimanche", "lundi", "mardi", "mercredi", "jeudi", "vendredi", "samedi"]
    abbreviatedDayNames := texts ["dim.", "lun.", "mar.", "mer.", "jeu.", "ven.", "sam."]
    monthNames := texts
      ["janvier", "février", "mars", "avril", "mai", "juin", "juillet", "août", "septembre",
        "octobre", "novembre", "décembre"]
    abbreviatedMonthNames := texts
      ["janv.", "févr.", "mars", "avr.", "mai", "juin", "juil.", "août", "sept.", "oct.",
        "nov.", "déc."] }

/-- English as in India, where digits are grouped in lakhs and crores. -/
def enIN : Culture :=
  { enUS with
    name := "en-IN".toList
    groupSizes := [3, 2]
    currencySymbol := ['₹']
    currencyPositivePattern := "$ n".toList
    currencyNegativePattern := "$ -n".toList
    firstDayOfWeek := .monday }

/-- The cultures by the names under which they are found, in small
letters. -/
def known : List (Text × Culture) :=
  [("en-us".toList, enUS), ("en".toList, enUS), ("de-de".toList, deDE), ("de".toList, deDE),
    ("fr-fr".toList, frFR), ("fr".toList, frFR), ("en-in".toList, enIN)]

/-- The culture of a name, if it is known. Case matters only outside the letters
from `a` to `z`. -/
def named? (name : Text) : Option Culture :=
  known.lookup (name.map Char.toLower)

end Culture

end TickLabels
