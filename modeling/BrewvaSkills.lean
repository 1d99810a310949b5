import BrewvaSkills.Builtins
import BrewvaSkills.Path
import BrewvaSkills.FileSystem
import BrewvaSkills.TreeCalls
import BrewvaSkills.Locations
import BrewvaSkills.Settings
import BrewvaSkills.Discovery
import BrewvaSkills.Frontmatter
import BrewvaSkills.Registry
import BrewvaSkills.Metadata
import BrewvaSkills.Precedence
import BrewvaSkills.Source
import BrewvaSkills.Destination
import BrewvaSkills.Fork
import BrewvaSkills.Main
import BrewvaSkills.Runs
